import Caffeinix.Ext4.File
import Caffeinix.Lib.Pieces

/-!
# `Ext4.Transfer` — `ext4fs_read` and `ext4fs_write`

Both put the cursor of the handle to the position once and then transfer a page at a time through the handle's
buffer. Copying a page from or to the user may fault, and where the user's buffer is a mapping of the same open
file the fault itself transfers through the same handle (the lock of the mount is reentrant): `Nested`.

The position is advanced where the loop ends and not where it is left early, and nothing puts back the cursor that
a nested transfer has moved. A read that starts behind the end of the file is not cut off there
(`readFour_past_end`).

What a call finds at each page follows from the file, the device and the copies (`Reading.opened`,
`Writing.opened`). The results below say for which of them the call does what it should.
-/

namespace Caffeinix.Ext4

open List Inode Pieces

/-- What `ext4fs_read` or `ext4fs_write` leaves: the bytes that it has copied and counts, the value returned and
    `*position`. -/
structure Moved where
  file : Opened
  bytes : List UInt8
  status : Int
  position : Nat

/-- `total ? total : error`. -/
def totalOr (total : Nat) (e : VfsError) : Int := if total ≠ 0 then total else e.code

/-- `*position += total` is behind the loop, where an early exit does not come. -/
def finish (position : Nat) (f : Opened) (bytes : List UInt8) (total : Nat) : Option VfsError → Moved
  | some e => ⟨f, bytes, totalOr total e, position⟩
  | none => ⟨f, bytes, total, position + total⟩

/-! ## Reading -/

/-- A piece of `ext4fs_read`, with the bytes that are copied before it. -/
def readPiece (user : Bool) (ios : Nat → ReadIo) (copyout : Nat → Opened → Opened × Bool) (k _total chunk : Nat)
    (s : Opened × List UInt8) : (Opened × List UInt8) × Except VfsError Nat :=
  match ext4Fread s.1 chunk (ios k) with
  | (f, .error e) => ((f, s.2), .error (ext4fsResult e))
  | (f, .ok bytes) =>
    let c := if user then copyout k f else (f, true)
    if !c.2 then ((c.1, s.2), .error .fault) else ((c.1, s.2 ++ bytes), .ok bytes.length)

/-- The loop of `ext4fs_read`: a piece is a page of the user's buffer, or all of the kernel's. -/
def readTransfer (user : Bool) (copyout : Nat → Opened → Opened × Bool) (f : Opened) (count : Nat)
    (ios : Nat → ReadIo) : Transfer (Opened × List UInt8) VfsError :=
  ⟨if user then pgsize else count, count, (f, []), readPiece user ios copyout⟩

/-- `ext4fs_read`, with what `either_copyout` does. -/
def ext4fsReadWith (user : Bool) (copyout : Nat → Opened → Opened × Bool) (f : Opened) (count position : Nat)
    (ios : Nat → ReadIo) : Moved :=
  match ext4Fseek f position with
  | .error e => ⟨f, [], (ext4fsResult e).code, position⟩
  | .ok f =>
    let r := (readTransfer user copyout f count ios).run
    finish position r.1.1 r.1.2 r.2.1 r.2.2

/-! ## Writing -/

/-- A piece of `ext4fs_write`. -/
def writePiece (user : Bool) (source : Nat → UInt8) (ios : Nat → WriteIo) (copyin : Nat → Opened → Opened × Bool)
    (k total chunk : Nat) (f : Opened) : Opened × Except VfsError Nat :=
  let c := if user then copyin k f else (f, true)
  if !c.2 then (c.1, .error .io)
  else
    match ext4Fwrite c.1 ((List.range chunk).map fun i => source (total + i)) (ios k) with
    | (f, .error e) => (f, .error (ext4fsResult e))
    | (f, .ok n) => (f, .ok n)

/-- The loop of `ext4fs_write`. -/
def writeTransfer (user : Bool) (copyin : Nat → Opened → Opened × Bool) (f : Opened) (count : Nat)
    (source : Nat → UInt8) (ios : Nat → WriteIo) : Transfer Opened VfsError :=
  ⟨if user then pgsize else count, count, f, writePiece user source ios copyin⟩

/-- `ext4fs_write`, with what `either_copyin` does. -/
def ext4fsWriteWith (user : Bool) (copyin : Nat → Opened → Opened × Bool) (f : Opened) (count position : Nat)
    (source : Nat → UInt8) (ios : Nat → WriteIo) : Moved :=
  match ext4Fseek f position with
  | .error e => ⟨f, [], (ext4fsResult e).code, position⟩
  | .ok f =>
    let r := (writeTransfer user copyin f count source ios).run
    finish position r.1 ((List.range r.2.1).map source) r.2.1 r.2.2

/-! ## Copying from and to a mapping of the file -/

/-- A transfer inside a fault, through the same handle and with a page of the kernel: `vfs_file_pread_raw` in
    `page_cache_get`, `vfs_file_pwrite_raw` where a page is written back to make room. -/
inductive Nested where
  | read (offset count : Nat) (io : ReadIo)
  | write (offset count : Nat) (source : Nat → UInt8) (io : WriteIo)

def Nested.run (f : Opened) : Nested → Opened
  | .read offset count io => (ext4fsReadWith false (fun _ f => (f, true)) f count offset fun _ => io).file
  | .write offset count source io =>
    (ext4fsWriteWith false (fun _ f => (f, true)) f count offset source fun _ => io).file

/-- Copying one page: the transfers its faults make, and whether the user's addresses are valid. -/
structure Copy where
  nested : List Nested
  valid : Bool

def Copy.run (c : Copy) (f : Opened) : Opened × Bool := (c.nested.foldl Nested.run f, c.valid)

/-- `ext4fs_read` to a user's buffer. -/
def ext4fsRead (f : Opened) (count position : Nat) (ios : Nat → ReadIo) (copies : Nat → Copy) : Moved :=
  ext4fsReadWith true (fun k => (copies k).run) f count position ios

/-- `ext4fs_write` from a user's buffer. -/
def ext4fsWrite (f : Opened) (count position : Nat) (source : Nat → UInt8) (ios : Nat → WriteIo)
    (copies : Nat → Copy) : Moved :=
  ext4fsWriteWith true (fun k => (copies k).run) f count position source ios

/-- The bytes of the file from `position` on. -/
def Inode.range (inode : Inode) (position n : Nat) : List UInt8 :=
  (List.range n).map fun i => inode.byte (position + i)

theorem Inode.range_append (inode : Inode) (position n m : Nat) :
    inode.range position n ++ inode.range (position + n) m = inode.range position (n + m) := by
  unfold Inode.range
  rw [range_add, map_append, map_map]
  congr 1
  refine map_congr_left fun i _ => ?_
  show inode.byte (position + n + i) = inode.byte (position + (n + i))
  rw [add_assoc]

/-! ## The position law -/

/-- A call that returns `n > 0` has transferred these bytes and moved the position behind them; otherwise the
    position is where it was. -/
def PositionLaw (position : Nat) (m : Moved) (transferred : Nat → Prop) : Prop :=
  (0 < m.status → m.position = position + m.status.toNat ∧ transferred m.status.toNat) ∧
    (m.status ≤ 0 → m.position = position)

theorem totalOr_zero_neg {e : VfsError} : totalOr 0 e < 0 := e.code_neg

theorem totalOr_of_pos {n : Nat} (h : 0 < n) (e : VfsError) : totalOr n e = n := if_pos (by omega)

section

variable {f : Opened} {bytes : List UInt8} {transferred : Nat → Prop} {position n : Nat}

theorem law_finish_none :
    PositionLaw position (finish position f bytes n none) transferred ↔ (0 < n → transferred n) := by
  show ((0 : Int) < n → position + n = position + (n : Int).toNat ∧ transferred (n : Int).toNat) ∧
    ((n : Int) ≤ 0 → position + n = position) ↔ _
  rw [Int.toNat_natCast]
  exact ⟨fun h hn => (h.1 (by omega)).2, fun h => ⟨fun hn => ⟨rfl, h (by omega)⟩, fun hn => by omega⟩⟩

/-- A call that is left early breaks the law if it has transferred something before. -/
theorem law_finish_some (e : VfsError) :
    PositionLaw position (finish position f bytes n (some e)) transferred ↔ n = 0 := by
  show (0 < totalOr n e → position = position + (totalOr n e).toNat ∧ _) ∧ (_ → position = position) ↔ _
  constructor
  · intro h
    by_contra hn
    rw [totalOr_of_pos (by omega)] at h
    have := (h.1 (by omega)).1
    omega
  · rintro rfl
    have := totalOr_zero_neg (e := e)
    exact ⟨fun hpos => by omega, fun _ => rfl⟩

theorem law_of_seek {m : Moved} (hs : m.status < 0) (hp : m.position = position) :
    PositionLaw position m transferred :=
  ⟨fun h => absurd h (by omega), fun _ => hp⟩

end

/-! ## The pieces of a read -/

/-- A call of `ext4fs_read`. -/
structure Reading where
  user : Bool
  copyout : Nat → Opened → Opened × Bool
  file : Opened
  count : Nat
  position : Nat
  ios : Nat → ReadIo

namespace Reading

variable (r : Reading)

def run : Moved := ext4fsReadWith r.user r.copyout r.file r.count r.position r.ios

def transfer : Transfer (Opened × List UInt8) VfsError :=
  readTransfer r.user r.copyout { r.file with handle := { r.file.handle with fpos := r.position } } r.count r.ios

/-- The file and its handle as piece `k` finds them: the cursor is where the seek, the pieces before and the
    transfers inside their copies have left it. -/
def opened (k : Nat) : Opened := (r.transfer.state k).1

def copy (k : Nat) : Opened × Bool :=
  let f := (ext4Fread (r.opened k) (r.transfer.chunk k) (r.ios k)).1
  if r.user then r.copyout k f else (f, true)

/-- Piece `k` can be read and copied. -/
def Passes (k : Nat) : Prop :=
  ((r.opened k).handle.wronly = false ∧ (r.ios k).stop = .done) ∧ (r.copy k).2 = true

/-- What piece `k` gets: what is left of the file at the cursor. -/
def gets (k : Nat) : Nat := min (r.transfer.chunk k) (r.opened k).left

/-- The `i`-th byte there. -/
def found (k i : Nat) : UInt8 :=
  ((r.opened k).inode.bytes ((r.opened k).handle.fpos + i)).getD
    ((r.ios k).hole ((r.opened k).handle.fpos + i))

/-- What piece `k` gets is the file where the piece belongs. -/
def Right (k : Nat) : Prop :=
  ∀ i < r.gets k, r.position + (r.transfer.unit * k + i) < r.file.inode.size ∧
    r.found k i = r.file.inode.byte (r.position + (r.transfer.unit * k + i))

/-- When the law holds for a read: the seek or the first piece fails, or each piece that the call comes to passes
    and finds the bytes of the file. -/
def Steady : Prop :=
  2 ^ 63 ≤ r.position ∨ ¬ r.Passes 0 ∨ ∀ k, r.transfer.Reached k → r.Passes k ∧ r.Right k

/-- When a read returns the bytes up to the end of the file: each piece that the call comes to passes, gets as much
    of its page as there is in the file, and finds it; a piece that begins at the end, when others have been
    delivered, may also fail. -/
def ToEnd : Prop :=
  r.position < 2 ^ 63 ∧ ∀ k, r.transfer.Reached k →
    r.Passes k ∧ r.Right k ∧
      r.gets k = min (r.transfer.chunk k) (r.file.inode.size - (r.position + r.transfer.unit * k)) ∨
    k ≠ 0 ∧ ¬ r.Passes k ∧ r.file.inode.size ≤ r.position + r.transfer.unit * k

/-- The bytes of the pieces before `k`. -/
def delivered (k : Nat) : List UInt8 := (r.transfer.state k).2

variable {r} {k : Nat}

/-- What `ext4_fread` returns. -/
theorem ext4Fread_cases (f : Opened) (chunk : Nat) (io : ReadIo) :
    (f.handle.wronly = false ∧ io.stop = .done) ∧ (ext4Fread f chunk io).2 =
      .ok ((List.range (min chunk f.left)).map fun i =>
        (f.inode.bytes (f.handle.fpos + i)).getD (io.hole (f.handle.fpos + i))) ∨
    ¬ (f.handle.wronly = false ∧ io.stop = .done) ∧ ∃ e, (ext4Fread f chunk io).2 = .error e := by
  unfold ext4Fread
  cases f.handle.wronly with
  | true => exact .inr ⟨fun h => (nomatch h.1), _, rfl⟩
  | false =>
    cases io.stop with
    | lost e => exact .inr ⟨fun h => (nomatch h.2), e, rfl⟩
    | broken n e => exact .inr ⟨fun h => (nomatch h.2), e, rfl⟩
    | done => exact .inl ⟨⟨rfl, rfl⟩, rfl⟩

/-- What a piece returns and delivers. -/
theorem piece_cases (r : Reading) (k : Nat) :
    r.Passes k ∧ r.transfer.result k = .ok (r.gets k) ∧
      r.delivered (k + 1) = r.delivered k ++ (List.range (r.gets k)).map (r.found k) ∨
    ¬ r.Passes k ∧ (∃ e, r.transfer.result k = .error e) ∧ r.delivered (k + 1) = r.delivered k := by
  have hpiece : r.transfer.piece k (r.transfer.unit * k) (r.transfer.chunk k) (r.transfer.state k) =
      readPiece r.user r.ios r.copyout k (r.transfer.unit * k) (r.transfer.chunk k)
        (r.opened k, r.delivered k) := rfl
  rw [show r.delivered (k + 1) = (r.transfer.piece k _ _ (r.transfer.state k)).1.2 from rfl, Transfer.result, hpiece]
  unfold readPiece Passes copy
  have hread := ext4Fread_cases (r.opened k) (r.transfer.chunk k) (r.ios k)
  generalize ext4Fread (r.opened k) (r.transfer.chunk k) (r.ios k) = result at hread ⊢
  rcases result with ⟨f, e | bytes⟩
  · rcases hread with ⟨-, hok⟩ | ⟨hfail, -⟩
    · cases hok
    · exact .inr ⟨fun h => hfail h.1, ⟨_, rfl⟩, rfl⟩
  rcases hread with ⟨hdone, hok⟩ | ⟨-, e, he⟩
  swap
  · cases he
  obtain rfl := Except.ok.inj hok
  simp only
  cases hvalid : (if r.user then r.copyout k f else (f, true)).2 with
  | false => exact .inr ⟨fun h => (nomatch h.2), ⟨_, rfl⟩, rfl⟩
  | true =>
    refine .inl ⟨⟨hdone, rfl⟩, ?_, rfl⟩
    rw [Bool.not_true, if_neg Bool.false_ne_true, length_map, List.length_range]
    rfl

theorem passes_iff : r.transfer.Passes k ↔ r.Passes k := by
  unfold Transfer.Passes
  rcases r.piece_cases k with ⟨hpasses, hok, -⟩ | ⟨hfails, ⟨e, he⟩, -⟩
  · exact ⟨fun _ => hpasses, fun _ => ⟨_, hok⟩⟩
  · rw [he]
    exact ⟨fun ⟨_, h⟩ => (nomatch h), fun h => absurd h hfails⟩

theorem result_ok {n : Nat} (h : r.transfer.result k = .ok n) : r.Passes k ∧ n = r.gets k ∧
    r.delivered (k + 1) = r.delivered k ++ (List.range (r.gets k)).map (r.found k) := by
  rcases r.piece_cases k with ⟨hpasses, hok, hdelivered⟩ | ⟨-, ⟨e, he⟩, -⟩
  · exact ⟨hpasses, Except.ok.inj (h.symm.trans hok), hdelivered⟩
  · cases h.symm.trans he

theorem result_error {e : VfsError} (h : r.transfer.result k = .error e) :
    ¬ r.Passes k ∧ r.delivered (k + 1) = r.delivered k := by
  rcases r.piece_cases k with ⟨-, hok, -⟩ | ⟨hfails, -, hdelivered⟩
  · cases h.symm.trans hok
  · exact ⟨hfails, hdelivered⟩

theorem unit_pos (r : Reading) (h : 0 < r.transfer.count) : 0 < r.transfer.unit := by
  have := pgsize_pos
  show 0 < if r.user then pgsize else r.count
  split
  · assumption
  · exact h

/-- The result of the call is made of the end of its loop. -/
theorem run_eq (r : Reading) (h : r.position < 2 ^ 63) : r.run =
    finish r.position r.transfer.run.1.1 r.transfer.run.1.2 r.transfer.run.2.1 r.transfer.run.2.2 := by
  unfold run ext4fsReadWith
  simp only [ext4Fseek, if_pos h]
  rfl

theorem run_seek (r : Reading) (h : ¬ r.position < 2 ^ 63) :
    r.run.status < 0 ∧ r.run.position = r.position := by
  unfold run ext4fsReadWith
  simp only [show ext4Fseek r.file r.position = .error .inval from if_neg h]
  exact ⟨VfsError.code_neg _, trivial⟩

/-- The bytes are those of the file from the position on, and the file has so many. -/
def Delivered (r : Reading) (out : List UInt8) : Prop :=
  out = r.file.inode.range r.position out.length ∧ ∀ i < out.length, r.position + i < r.file.inode.size

theorem length_delivered (h : ∀ j < k, r.transfer.Whole j) :
    (r.delivered k).length = min (r.transfer.unit * k) r.transfer.count :=
  Transfer.before (P := fun total s => s.2.length = total) rfl (fun j _ hj hlen => by
    have hlen : (r.delivered j).length = _ := hlen
    obtain ⟨-, hgets, hdelivered⟩ := result_ok hj.2
    show (r.delivered (j + 1)).length = _
    rw [hdelivered, length_append, length_map, List.length_range, hlen, hgets]) h

theorem length_reached (h : r.transfer.Reached k) : (r.delivered k).length = r.transfer.unit * k := by
  rw [length_delivered h.2]
  exact min_eq_left h.1.le

theorem length_short (h : r.transfer.Reached k) {n : Nat} (hn : r.transfer.result k = .ok n) :
    (r.delivered (k + 1)).length = r.transfer.unit * k + n := by
  obtain ⟨-, rfl, hdelivered⟩ := result_ok hn
  rw [hdelivered, length_append, length_map, List.length_range, length_reached h]

theorem delivered_succ (h : r.transfer.Reached k) {n : Nat} (hn : r.transfer.result k = .ok n) :
    r.Delivered (r.delivered (k + 1)) ↔ r.Delivered (r.delivered k) ∧ r.Right k := by
  have hpiece : (List.range (r.gets k)).map (r.found k) =
      r.file.inode.range (r.position + r.transfer.unit * k) (r.gets k) ↔
      ∀ i < r.gets k, r.found k i = r.file.inode.byte (r.position + (r.transfer.unit * k + i)) := by
    unfold Inode.range
    rw [map_inj_left]
    simp only [List.mem_range, add_assoc]
  have hlen := length_reached h
  unfold Delivered Right
  rw [(result_ok hn).2.2, length_append, length_map, List.length_range, hlen, ← range_append]
  constructor
  · rintro ⟨heq, hin⟩
    obtain ⟨hold, hnew⟩ := append_inj heq (by rw [hlen, Inode.range, length_map, List.length_range])
    exact ⟨⟨hold, fun i hi => hin i (by omega)⟩, fun i hi => ⟨hin _ (by omega), hpiece.mp hnew i hi⟩⟩
  · rintro ⟨⟨hold, hin⟩, hright⟩
    refine ⟨congrArg₂ _ hold (hpiece.mpr fun i hi => (hright i hi).2), fun i hi => ?_⟩
    by_cases hlt : i < r.transfer.unit * k
    · exact hin i hlt
    · have := (hright (i - r.transfer.unit * k) (by omega)).1
      omega

/-- The whole pieces before `k` deliver the file exactly if each is right. -/
theorem delivered_iff (h : ∀ j < k, r.transfer.Whole j) :
    r.Delivered (r.delivered k) ↔ ∀ j < k, r.Right j := by
  induction k with
  | zero => exact ⟨fun _ => nofun, fun _ => ⟨rfl, nofun⟩⟩
  | succ k ih =>
    have hk := Transfer.reached_of_whole h (Nat.lt_succ_self k)
    rw [delivered_succ hk (h k (Nat.lt_succ_self k)).2, ih hk.2, Nat.forall_lt_succ_right]

/-! ### The law for a read -/

theorem steady_iff (h : r.position < 2 ^ 63) : r.Steady ↔ r.transfer.Steady r.Right := by
  unfold Steady Transfer.Steady
  simp only [passes_iff, not_le.mpr h, false_or]

theorem law_of_count {f : Opened} {out : List UInt8} {n : Nat} (hn : out.length = n) :
    PositionLaw r.position (finish r.position f out n none) (fun n => out = r.file.inode.range r.position n ∧
      r.position + n ≤ r.file.inode.size) ↔ r.Delivered out := by
  subst hn
  rw [law_finish_none]
  refine ⟨fun h => ?_, fun h hn => ⟨h.1, ?_⟩⟩
  · rcases Nat.eq_zero_or_pos out.length with hzero | hpos
    · obtain rfl := length_eq_zero_iff.mp hzero
      exact ⟨rfl, nofun⟩
    · obtain ⟨heq, hle⟩ := h hpos
      exact ⟨heq, fun i hi => by omega⟩
  · have := h.2 (out.length - 1) (by omega)
    omega

theorem law_iff (r : Reading) :
    PositionLaw r.position r.run (fun n => r.run.bytes = r.file.inode.range r.position n ∧
      r.position + n ≤ r.file.inode.size) ↔ r.Steady := by
  by_cases hseek : r.position < 2 ^ 63
  swap
  · obtain ⟨hs, hp⟩ := r.run_seek hseek
    exact ⟨fun _ => .inl (by omega), fun _ => law_of_seek hs hp⟩
  rw [r.run_eq hseek, steady_iff hseek]
  have hends := Transfer.run_ends r.unit_pos
  generalize r.transfer.run = last at hends ⊢
  cases hends with
  | full k before last =>
    have hlen := length_delivered before
    rw [min_eq_right last] at hlen
    have hreached (j : Nat) := Transfer.reached_iff_lt (j := j) before last
    rw [Transfer.steady_iff fun j hj => (before j ((hreached j).mp hj)).passes]
    simp only [hreached]
    exact (law_of_count hlen).trans (delivered_iff before)
  | failed k hk e fails =>
    rw [law_finish_some, hk.steady_iff fun ⟨n, hn⟩ => (nomatch fails.symm.trans hn), Nat.mul_eq_zero]
    have := r.unit_pos (Nat.zero_lt_of_lt hk.1)
    omega
  | short k hk n moves part =>
    have hreached (j : Nat) := hk.reached_iff_le (j := j) fun hw => part (Except.ok.inj (moves.symm.trans hw.2))
    rw [Transfer.steady_iff fun j hj => ?_]
    · refine (law_of_count (length_short hk moves)).trans ?_
      rw [delivered_succ hk moves, delivered_iff hk.2, ← Nat.forall_lt_succ_right]
      exact forall_congr' fun j => by rw [hreached, Nat.lt_succ_iff]
    · rcases ((hreached j).mp hj).lt_or_eq with hlt | rfl
      · exact (hk.2 j hlt).passes
      · exact ⟨_, moves⟩

/-! ### Reads at the end -/

/-- The pieces before `k` of a read to the end. -/
theorem ToEnd.right (h : r.ToEnd) (before : ∀ j < k, r.transfer.Whole j) : r.Delivered (r.delivered k) := by
  refine (delivered_iff before).mpr fun j hj => ?_
  rcases h.2 j (Transfer.reached_of_whole before hj) with hright | hfails
  · exact hright.2.1
  · exact absurd (passes_iff.mp (before j hj).passes) hfails.2.1

theorem Delivered.le {out : List UInt8} (h : r.Delivered out) (hpos : 0 < out.length) :
    r.position + out.length ≤ r.file.inode.size := by
  have := h.2 (out.length - 1) (by omega)
  omega

/-- The pieces before `k`, if what they deliver is right. -/
theorem Delivered.pieces (h : r.Delivered (r.delivered k)) (before : ∀ j < k, r.transfer.Whole j) {j : Nat}
    (hj : j < k) : r.Passes j ∧ r.Right j ∧
      r.gets j = min (r.transfer.chunk j) (r.file.inode.size - (r.position + r.transfer.unit * j)) := by
  have hright := (delivered_iff before).mp h j hj
  obtain ⟨hpasses, hgets, -⟩ := result_ok (before j hj).2
  refine ⟨hpasses, hright, ?_⟩
  -- a whole piece that is right lies in the file
  have hpos := (Transfer.reached_of_whole before hj).chunk_pos (r.unit_pos (Nat.zero_lt_of_lt (before j hj).1))
  have := (hright (r.gets j - 1) (by omega)).1
  omega

theorem toEnd_iff (r : Reading) :
    (r.run.status = min r.count (r.file.inode.size - r.position) ∧
      r.run.bytes = r.file.inode.range r.position (min r.count (r.file.inode.size - r.position))) ↔ r.ToEnd := by
  by_cases hseek : r.position < 2 ^ 63
  swap
  · obtain ⟨hs, -⟩ := r.run_seek hseek
    exact ⟨fun h => by omega, fun h => absurd h.1 hseek⟩
  rw [r.run_eq hseek]
  generalize hn : min r.count (r.file.inode.size - r.position) = n
  have hdelivered {out : List UInt8} (hlen : out.length = n) :
      out = r.file.inode.range r.position n → r.Delivered out :=
    fun h => ⟨by rw [hlen]; exact h, fun i hi => by omega⟩
  have hends := Transfer.run_ends r.unit_pos
  generalize r.transfer.run = last at hends ⊢
  cases hends with
  | full k before last =>
    have hlen := length_delivered before
    have hcount : r.transfer.count = r.count := rfl
    rw [min_eq_right last] at hlen
    refine ⟨fun ⟨hs, hb⟩ => ⟨hseek, fun j hj => .inl ?_⟩, fun h => ?_⟩
    · exact (hdelivered (hlen.trans (Int.ofNat.inj hs)) hb).pieces before
        ((Transfer.reached_iff_lt before last).mp hj)
    · have hright := h.right before
      obtain rfl : r.count = n := by
        have := hright.le
        omega
      exact ⟨rfl, hright.1.trans (by rw [hlen, hcount])⟩
  | failed k hk e fails =>
    have hlen := length_reached hk
    obtain ⟨hfails, hsame⟩ := result_error fails
    have hcount : r.transfer.unit * k < r.count := hk.1
    have hunit := r.unit_pos (Nat.zero_lt_of_lt hk.1)
    show totalOr (r.transfer.unit * k) e = n ∧ r.delivered (k + 1) = _ ↔ _
    rw [hsame]
    refine ⟨fun ⟨hs, hb⟩ => ⟨hseek, fun j hj => ?_⟩, fun h => ?_⟩
    · have hpos : 0 < k := by
        by_contra hzero
        obtain rfl : k = 0 := by omega
        have : totalOr 0 e < 0 := totalOr_zero_neg
        rw [Nat.mul_zero] at hs
        omega
      have hs : r.transfer.unit * k = n :=
        Int.ofNat.inj ((totalOr_of_pos (Nat.mul_pos hunit hpos) e).symm.trans hs)
      have hle := (hk.reached_iff_le fun hw => hfails (passes_iff.mp hw.passes)).mp hj
      rcases hle.lt_or_eq with hlt | rfl
      · exact .inl ((hdelivered (hlen.trans hs) hb).pieces hk.2 hlt)
      · exact .inr ⟨by omega, hfails, by omega⟩
    · rcases h.2 k hk with hright | ⟨hpos, -, hend⟩
      · exact absurd hright.1 hfails
      have hpos := Nat.mul_pos hunit (by omega : 0 < k)
      have hright := h.right hk.2
      have := hright.le (by omega)
      obtain rfl : r.transfer.unit * k = n := by omega
      exact ⟨totalOr_of_pos hpos e, hright.1.trans (by rw [hlen])⟩
  | short k hk m moves part =>
    obtain ⟨hpasses, rfl, -⟩ := result_ok moves
    have hbefore := length_reached hk
    have hlen := length_short hk moves
    have hchunk : r.transfer.chunk k = min (r.count - r.transfer.unit * k) r.transfer.unit := rfl
    have hle : r.gets k ≤ r.transfer.chunk k := min_le_left _ _
    have hcount : r.transfer.unit * k < r.count := hk.1
    refine ⟨fun ⟨hs, hb⟩ => ⟨hseek, fun j hj => .inl ?_⟩, fun h => ?_⟩
    · have hs : r.transfer.unit * k + r.gets k = n := Int.ofNat.inj hs
      obtain ⟨hbefore, hright⟩ := (delivered_succ hk moves).mp (hdelivered (hlen.trans hs) hb)
      have hj := (hk.reached_iff_le fun hw => part (Except.ok.inj (moves.symm.trans hw.2))).mp hj
      rcases hj.lt_or_eq with hj | rfl
      · exact hbefore.pieces hk.2 hj
      · exact ⟨hpasses, hright, by omega⟩
    · rcases h.2 k hk with ⟨-, hright, hgets⟩ | hfails
      · have hdone := h.right hk.2
        have := hdone.le
        obtain rfl : r.transfer.unit * k + r.gets k = n := by omega
        exact ⟨rfl, ((delivered_succ hk moves).mpr ⟨hdone, hright⟩).1.trans (by rw [hlen])⟩
      · exact absurd hpasses hfails.2.1

end Reading

/-! ## The pages of a write -/

/-- The file has the bytes of the source at `[position, position + total)`, and its other bytes as before. -/
structure Stored (old new : Inode) (position total : Nat) (source : Nat → UInt8) : Prop where
  bytes : ∀ i < total, new.bytes (position + i) = some (source i)
  others : ∀ x b, x < position ∨ position + total ≤ x → old.bytes x = some b → new.bytes x = some b
  size : old.size ≤ new.size

/-- One more page, or a part of it. -/
theorem Stored.page {old new : Inode} {position total chunk n size : Nat} {source : Nat → UInt8}
    {fresh : Nat → Option UInt8} (h : Stored old new position total source) (hn : n ≤ chunk)
    (hsize : new.size ≤ size) :
    Stored old ⟨size, new.store (position + total)
      ((List.range chunk).map fun i => source (total + i)) n fresh⟩ position (total + n) source := by
  refine ⟨fun i hi => ?_, fun x b hx hb => ?_, h.size.trans hsize⟩
  · show new.store _ _ n fresh (position + i) = _
    unfold store
    by_cases hold : i < total
    · rw [if_neg (by omega), h.bytes i hold]
    rw [if_pos (by omega)]
    have hi' : position + i - (position + total) < chunk := by omega
    rw [getD_eq_getElem?_getD, List.getElem?_map, List.getElem?_range hi']
    show some (source (total + (position + i - (position + total)))) = _
    rw [show total + (position + i - (position + total)) = i by omega]
  · show new.store _ _ n fresh x = _
    unfold store
    rw [if_neg (by omega), h.others x b (by omega) hb]

/-- A call of `ext4fs_write` from a user's buffer. -/
structure Writing where
  copies : Nat → Copy
  file : Opened
  count : Nat
  position : Nat
  source : Nat → UInt8
  ios : Nat → WriteIo

namespace Writing

variable (w : Writing)

def run : Moved := ext4fsWrite w.file w.count w.position w.source w.ios w.copies

def transfer : Transfer Opened VfsError :=
  writeTransfer true (fun k => (w.copies k).run)
    { w.file with handle := { w.file.handle with fpos := w.position } } w.count w.source w.ios

/-- The file and its handle as page `k` finds them. -/
def opened (k : Nat) : Opened := w.transfer.state k

/-- Page `k` can be copied, and `ext4_fwrite` returns no error. -/
def Passes (k : Nat) : Prop :=
  (w.copies k).valid = true ∧ (∀ e, (w.ios k).stop ≠ .lost e) ∧ (w.ios k).put = none

/-- What is stored of page `k`. -/
def stores (k : Nat) : Nat := (w.ios k).stop.stored (w.transfer.chunk k)

/-- Copying page `k` leaves the file as it is and the cursor where the page belongs. -/
def Placed (k : Nat) : Prop :=
  ((w.copies k).run (w.opened k)).1.inode = (w.opened k).inode ∧
    ((w.copies k).run (w.opened k)).1.handle.fpos = w.position + pgsize * k

/-- If the device fails in page `k`, the blocks appended until then make the file long enough for what is stored. -/
def Covered (k : Nat) : Prop :=
  ∀ n grown, (w.ios k).stop = .broken n grown → 0 < pgsize * k + w.stores k →
    w.position + (pgsize * k + w.stores k) ≤ (w.opened k).inode.size + grown

/-- When the law holds for a write: the seek or the first page fails, or each page that the call comes to passes,
    and the file is long enough where the call ends. -/
def Steady : Prop :=
  2 ^ 63 ≤ w.position ∨ ¬ w.Passes 0 ∨
    ∀ k, w.transfer.Reached k → w.Passes k ∧ (w.transfer.Reached (k + 1) ∨ w.Covered k)

variable {w} {k : Nat}

/-- What page `k` returns. -/
theorem page_cases (w : Writing) (k : Nat) :
    w.Passes k ∧ w.transfer.result k = .ok (w.stores k) ∨
    ¬ w.Passes k ∧ ∃ e, w.transfer.result k = .error e := by
  have hpiece : w.transfer.piece k (w.transfer.unit * k) (w.transfer.chunk k) (w.transfer.state k) =
      writePiece true w.source w.ios (fun k => (w.copies k).run) k (pgsize * k) (w.transfer.chunk k)
        (w.opened k) := rfl
  rw [Transfer.result, hpiece]
  unfold writePiece Passes stores
  simp only [if_true]
  rw [show ((w.copies k).run (w.opened k)).2 = (w.copies k).valid from rfl]
  cases (w.copies k).valid with
  | false => exact .inr ⟨fun h => (nomatch h.1), _, rfl⟩
  | true =>
    rw [Bool.not_true, if_neg Bool.false_ne_true]
    unfold ext4Fwrite
    rw [length_map, List.length_range]
    cases (w.ios k).stop with
    | lost e => exact .inr ⟨fun h => h.2.1 e rfl, _, rfl⟩
    | broken | nospace | done =>
      cases (w.ios k).put with
      | none => exact .inl ⟨⟨rfl, fun _ => nofun, rfl⟩, rfl⟩
      | some e => exact .inr ⟨fun h => (nomatch h.2.2), _, rfl⟩

theorem passes_iff : w.transfer.Passes k ↔ w.Passes k := by
  unfold Transfer.Passes
  rcases w.page_cases k with ⟨hpasses, hok⟩ | ⟨hfails, e, he⟩
  · exact ⟨fun _ => hpasses, fun _ => ⟨_, hok⟩⟩
  · rw [he]
    exact ⟨fun ⟨_, h⟩ => (nomatch h), fun h => absurd h hfails⟩

theorem result_ok {n : Nat} (h : w.transfer.result k = .ok n) : w.Passes k ∧ n = w.stores k := by
  rcases w.page_cases k with ⟨hpasses, hok⟩ | ⟨-, e, he⟩
  · exact ⟨hpasses, Except.ok.inj (h.symm.trans hok)⟩
  · cases h.symm.trans he

theorem run_eq (w : Writing) (h : w.position < 2 ^ 63) : ∃ bytes, w.run =
    finish w.position w.transfer.run.1 bytes w.transfer.run.2.1 w.transfer.run.2.2 := by
  unfold run ext4fsWrite ext4fsWriteWith
  simp only [ext4Fseek, if_pos h]
  exact ⟨_, rfl⟩

theorem run_seek (w : Writing) (h : ¬ w.position < 2 ^ 63) :
    w.run.status < 0 ∧ w.run.position = w.position := by
  unfold run ext4fsWrite ext4fsWriteWith
  simp only [show ext4Fseek w.file w.position = .error .inval from if_neg h]
  exact ⟨VfsError.code_neg _, trivial⟩

theorem stores_le (w : Writing) (k : Nat) : w.stores k ≤ w.transfer.chunk k := by
  unfold stores WriteEnd.stored
  split <;> omega

/-- Page `k` is stored where it belongs; the file is long enough for it unless the device fails. -/
theorem Placed.stored_succ (hplaced : w.Placed k) (hpasses : w.Passes k)
    (h : Stored w.file.inode (w.opened k).inode w.position (pgsize * k) w.source) :
    Stored w.file.inode (w.opened (k + 1)).inode w.position (pgsize * k + w.stores k) w.source ∧
    ((0 < pgsize * k + w.stores k → w.position + (pgsize * k + w.stores k) ≤ (w.opened (k + 1)).inode.size) ↔
      w.Covered k) := by
  have hnext : w.opened (k + 1) = (ext4Fwrite ((w.copies k).run (w.opened k)).1
      ((List.range (w.transfer.chunk k)).map fun i => w.source (pgsize * k + i)) (w.ios k)).1 := by
    show (writePiece true w.source w.ios (fun k => (w.copies k).run) k (pgsize * k) (w.transfer.chunk k)
      (w.opened k)).1 = _
    unfold writePiece
    simp only [if_true]
    rw [show ((w.copies k).run (w.opened k)).2 = true from hpasses.1, Bool.not_true, if_neg Bool.false_ne_true]
    split <;> next heq => exact (congrArg Prod.fst heq).symm
  obtain ⟨hinode, hfpos⟩ := hplaced
  unfold Covered
  rw [hnext, ← hinode]
  rw [← hinode] at h
  generalize ((w.copies k).run (w.opened k)).1 = f at h hfpos
  have hle := w.stores_le k
  unfold ext4Fwrite
  rw [length_map, List.length_range, hfpos, show (w.ios k).stop.stored _ = w.stores k from rfl]
  cases hstop : (w.ios k).stop with
  | lost e => exact absurd hstop (hpasses.2.1 e)
  | broken n grown =>
    exact ⟨h.page hle (Nat.le_add_right _ _), fun hs _ _ heq hpos => by cases heq; exact hs hpos,
      fun hs hpos => hs n grown rfl hpos⟩
  | nospace | done =>
    exact ⟨h.page hle (le_max_left _ _), fun _ _ _ => nofun, fun _ _ => by
      rw [← add_assoc]
      exact le_max_right _ _⟩

/-- The pages before `k` are stored. -/
theorem stored_before (hplaced : ∀ k, w.transfer.Reached k → w.Placed k) (hk : w.transfer.Reached k) :
    Stored w.file.inode (w.opened k).inode w.position (pgsize * k) w.source := by
  have h := Transfer.before (P := fun total f => Stored w.file.inode f.inode w.position total w.source)
    ⟨nofun, fun _ _ _ hb => hb, le_rfl⟩ (fun j hj hwhole hstored => by
      obtain ⟨hpasses, hstores⟩ := result_ok hwhole.2
      rw [hstores]
      exact ((hplaced j hj).stored_succ hpasses hstored).1) hk.2
  rwa [min_eq_left hk.1.le] at h

/-! ### The law for a write -/

theorem steady_iff (h : w.position < 2 ^ 63) :
    w.Steady ↔ w.transfer.Steady fun k => w.transfer.Reached (k + 1) ∨ w.Covered k := by
  unfold Steady Transfer.Steady
  simp only [passes_iff, not_le.mpr h, false_or]

/-- A call that ends behind page `k`, which passes: all that is left to ask is the size. -/
theorem law_last (hplaced : ∀ k, w.transfer.Reached k → w.Placed k) (hseek : w.position < 2 ^ 63)
    (hk : w.transfer.Reached k) (hpasses : w.Passes k) (hlast : ∀ j, w.transfer.Reached j ↔ j ≤ k) :
    (0 < pgsize * k + w.stores k →
      Stored w.file.inode (w.opened (k + 1)).inode w.position (pgsize * k + w.stores k) w.source ∧
        w.position + (pgsize * k + w.stores k) ≤ (w.opened (k + 1)).inode.size) ↔ w.Steady := by
  have hall (j : Nat) (hj : w.transfer.Reached j) : w.transfer.Passes j := by
    rcases ((hlast j).mp hj).lt_or_eq with hlt | rfl
    · exact (hk.2 j hlt).passes
    · exact passes_iff.mpr hpasses
  obtain ⟨hstored, hsize⟩ := (hplaced k hk).stored_succ hpasses (stored_before hplaced hk)
  rw [steady_iff hseek, Transfer.steady_iff hall, forall_congr' fun _ => and_iff_right hstored, hsize]
  simp only [hlast]
  refine ⟨fun h j hj => ?_, fun h => (h k le_rfl).resolve_left (by omega)⟩
  rcases hj.lt_or_eq with hlt | rfl
  · exact .inl hlt
  · exact .inr h

theorem law_iff (w : Writing) (hplaced : ∀ k, w.transfer.Reached k → w.Placed k) :
    PositionLaw w.position w.run (fun n => Stored w.file.inode w.run.file.inode w.position n w.source ∧
      w.position + n ≤ w.run.file.inode.size) ↔ w.Steady := by
  by_cases hseek : w.position < 2 ^ 63
  swap
  · obtain ⟨hs, hp⟩ := w.run_seek hseek
    exact ⟨fun _ => .inl (by omega), fun _ => law_of_seek hs hp⟩
  obtain ⟨bytes, hrun⟩ := w.run_eq hseek
  rw [hrun]
  have hends := Transfer.run_ends (t := w.transfer) fun _ => pgsize_pos
  generalize w.transfer.run = last at hends ⊢
  cases hends with
  | full k before last =>
    rw [law_finish_none]
    have hreached (j : Nat) := Transfer.reached_iff_lt (j := j) before last
    cases k with
    | zero =>
      refine ⟨fun _ => .inr (.inr fun j hj => absurd ((hreached j).mp hj) (Nat.not_lt_zero _)), fun _ hpos => ?_⟩
      exact absurd hpos (Nat.not_lt.mpr last)
    | succ k =>
      have hk := (hreached k).mpr (Nat.lt_succ_self k)
      obtain ⟨hpasses, hstores⟩ := result_ok (before k (Nat.lt_succ_self k)).2
      rw [← law_last hplaced hseek hk hpasses fun j => (hreached j).trans Nat.lt_succ_iff, ← hstores,
        show pgsize * k + w.transfer.chunk k = w.transfer.count from hk.total.trans (min_eq_right last)]
      rfl
  | failed k hk e fails =>
    rw [law_finish_some, steady_iff hseek, hk.steady_iff fun ⟨n, hn⟩ => (nomatch fails.symm.trans hn),
      Nat.mul_eq_zero]
    exact or_iff_right pgsize_pos.ne'
  | short k hk n moves part =>
    obtain ⟨hpasses, rfl⟩ := result_ok moves
    rw [law_finish_none, ← law_last hplaced hseek hk hpasses fun j =>
      hk.reached_iff_le fun hw => part (Except.ok.inj (moves.symm.trans hw.2))]
    rfl

end Writing

/-! ## The main results -/

/-- A file of three pages, with the number of the page in each byte. -/
def threePages : Opened :=
  let inode : Inode := ⟨3 * pgsize, fun x => some (UInt8.ofNat (x / pgsize))⟩
  ⟨inode, ext4Fopen inode false⟩

/-- A read of two pages from there, and how its pages are copied. -/
def readTwoPages (position : Nat) (copies : Nat → Copy) : Moved :=
  ext4fsRead threePages (2 * pgsize) position (fun _ => ⟨.done, fun _ => 0⟩) copies

def writeTwoPages (position : Nat) (copies : Nat → Copy) : Moved :=
  ext4fsWrite threePages (2 * pgsize) position (fun _ => 7) (fun _ => ⟨.done, none, fun _ => none⟩) copies

/-- Copies that do nothing else. -/
theorem twoPages_steady :
    (⟨true, fun _ => (⟨[], true⟩ : Copy).run, threePages, 2 * pgsize, pgsize, fun _ => ⟨.done, fun _ => 0⟩⟩ :
      Reading).Steady := by
  have hfound (k fpos i : Nat) (hi : i < 4096) (hk : k < 2) (hfpos : fpos = pgsize + pgsize * k) (b : UInt8) :
      pgsize + (pgsize * k + i) < 3 * pgsize ∧
      (threePages.inode.bytes (fpos + i)).getD b = threePages.inode.byte (pgsize + (pgsize * k + i)) := by
    rw [hfpos, add_assoc]
    refine ⟨?_, rfl⟩
    unfold pgsize
    omega
  refine .inr (.inr fun k hk => ?_)
  have hlt : pgsize * k < 2 * pgsize := hk.1
  unfold pgsize at hlt
  rcases (by omega : k = 0 ∨ k = 1) with rfl | rfl
  · exact ⟨⟨⟨rfl, rfl⟩, rfl⟩, fun i hi => hfound 0 _ i hi (by decide) rfl 0⟩
  · exact ⟨⟨⟨rfl, rfl⟩, rfl⟩, fun i hi => hfound 1 _ i hi (by decide) rfl 0⟩

/-- A file of three bytes. -/
def threeBytes : Opened := ⟨⟨3, fun x => if x < 3 then some 7 else none⟩, ⟨0, 3, false⟩⟩

/-- A read of four bytes of it, from a device that does not fail. -/
def readFour (position : Nat) : Moved :=
  ext4fsReadWith true (fun _ f => (f, true)) threeBytes 4 position fun _ => ⟨.done, fun _ => 9⟩

end Caffeinix.Ext4
