import Caffeinix.Ext4.File
import Caffeinix.Lib.Pieces

/-!
# `Ext4.Fallocate` — `ext4fs_fallocate`

The range is rewritten a page at a time: what lies below the end of the file is read and written back, the rest
is written with zeros. The end of the file is the size that the handle has seen last, which is not the size of
the file any more when another descriptor has written or truncated in between, so that data may be lost
(`staleSize_loses_data`). The result below says exactly for which files, handles and outcomes nothing is.
-/

namespace Caffeinix.Ext4

open List Pieces

/-- Reading back what is there of a page. `source` is the handle opened for reading where the descriptor's own
    handle is for writing only. -/
def readExisting (f : Opened) (source : Option Handle) (position existing : Nat) (io : ReadIo) :
    Opened × Option Handle × Except Errno (List UInt8) :=
  if existing = 0 then (f, source, .ok [])
  else
    match ext4Fseek ⟨f.inode, source.getD f.handle⟩ position with
    | .error e => (f, source, .error e)
    | .ok g =>
      let r := ext4Fread g existing io
      let f := if source.isSome then f else r.1
      let source := source.map fun _ => r.1.handle
      match r.2 with
      | .error e => (f, source, .error e)
      | .ok bytes => (f, source, if bytes.length = existing then .ok bytes else .error .io)

/-- A page of the range, behind `total` bytes of it. -/
def fallocatePiece (fileSize offset : Nat) (ios : Nat → ReadIo × WriteIo) (k total chunk : Nat)
    (s : Opened × Option Handle) : (Opened × Option Handle) × Except Errno Nat :=
  let position := offset + total
  let existing := min chunk (fileSize - position)
  match readExisting s.1 s.2 position existing (ios k).1 with
  | (f, source, .error e) => ((f, source), .error e)
  | (f, source, .ok bytes) =>
    match ext4Fseek f position with
    | .error e => ((f, source), .error e)
    | .ok f =>
      match ext4Fwrite f (bytes ++ replicate (chunk - existing) 0) (ios k).2 with
      | (f, .error e) => ((f, source), .error e)
      | (f, .ok n) => ((f, source), if n ≠ chunk then .error .io else .ok n)

/-- The loop. -/
def fallocateTransfer (f : Opened) (source : Option Handle) (offset length : Nat) (ios : Nat → ReadIo × WriteIo) :
    Transfer (Opened × Option Handle) Errno :=
  ⟨pgsize, length, (f, source), fallocatePiece f.handle.fsize offset ios⟩

/-- `ext4fs_fallocate`. `reopen` is the error of `ext4_fopen_by_number`, where it is called and has one. -/
def ext4fsFallocate (f : Opened) (offset length : Nat) (reopen : Option Errno) (ios : Nat → ReadIo × WriteIo) :
    Opened × Except VfsError Unit :=
  let run (source : Option Handle) : Opened × Except VfsError Unit :=
    match (fallocateTransfer f source offset length ios).run with
    | ((f, _), _, some e) => (f, .error (ext4fsResult e))
    | ((f, _), _, none) => (f, .ok ())
  if length = 0 then (f, .ok ())
  else if offset < f.handle.fsize && f.handle.wronly then
    match reopen with
    | some e => (f, .error (ext4fsResult e))
    | none => run (some (ext4Fopen f.inode false))
  else run none

/-- `vfs_fallocate` of a descriptor of the file. `writeback` and `privileges` are the outcomes of writing back
    cached pages and of `vfs_inode_remove_privileges`. -/
def vfsFallocate (f : Opened) (writable : Bool) (offset length : Nat) (writeback privileges : Bool)
    (reopen : Option Errno) (ios : Nat → ReadIo × WriteIo) : Opened × Except VfsError Unit :=
  if length = 0 || offset > 2 ^ 64 - 1 - length then (f, .error .inval)
  else if !writable then (f, .error .badf)
  else if !writeback then (f, .error .io)
  else if !privileges then (f, .error .io)
  else ext4fsFallocate f offset length reopen ios

/-! ## The pages of a call -/

/-- A call of `ext4fs_fallocate` that comes to its loop. -/
structure Filling where
  file : Opened
  offset : Nat
  length : Nat
  source : Option Handle
  ios : Nat → ReadIo × WriteIo

namespace Filling

variable (c : Filling)

def transfer : Transfer (Opened × Option Handle) Errno :=
  fallocateTransfer c.file c.source c.offset c.length c.ios

def place (k : Nat) : Nat := c.offset + pgsize * k

def existing (k : Nat) : Nat := min (c.transfer.chunk k) (c.file.handle.fsize - c.place k)

/-- What reading page `k` back finds in a file. -/
def found (inode : Inode) (k i : Nat) : UInt8 :=
  (inode.bytes (c.place k + i)).getD ((c.ios k).1.hole (c.place k + i))

def page (inode : Inode) (k : Nat) : List UInt8 :=
  (range (c.existing k)).map (c.found inode k) ++ replicate (c.transfer.chunk k - c.existing k) 0

/-- The file with its handle and the handle for reading, as page `k` finds them. -/
def opened (k : Nat) : Opened × Option Handle := c.transfer.state k

def inode (k : Nat) : Inode := (c.opened k).1.inode

/-- Page `k` can be read back, and writing it has an effect. -/
def Writes (k : Nat) : Prop :=
  (∃ bytes, (readExisting (c.opened k).1 (c.opened k).2 (c.place k) (c.existing k) (c.ios k).1).2.2 = .ok bytes) ∧
    c.place k < 2 ^ 63 ∧ ∀ e, (c.ios k).2.stop ≠ .lost e

def stores (k : Nat) : Nat := (c.ios k).2.stop.stored (c.transfer.chunk k)

/-- What is written of page `k` is what the file has there, and zeros behind its end. -/
def Right (k : Nat) : Prop :=
  ∀ i < c.stores k, (if i < c.existing k then c.found (c.inode k) k i else 0) =
    if c.place k + i < c.file.inode.size then c.file.inode.byte (c.place k + i) else 0

/-- What the blocks hold between the end of the file and the range is zero. -/
def Gap : Prop := ∀ x, c.file.inode.size ≤ x → x < c.offset → c.file.inode.byte x = 0

/-- When nothing is lost: each page that is written is right, and so is what it makes part of the file. -/
def Sound : Prop := ∀ k, c.transfer.Reached k → c.Writes k → c.Gap ∧ c.Right k

end Filling

/-- New blocks come with zeros, and the device does not fail in the middle of a write. -/
structure OrderlyIo (ios : Nat → ReadIo × WriteIo) : Prop where
  fresh : ∀ k x b, (ios k).2.fresh x = some b → b = 0
  whole : ∀ k, (ios k).2.Whole

/-- The bytes that were there are there, those that have come are zero, and the size has not shrunk. -/
structure Preserved (old new : Inode) : Prop where
  below : ∀ x < old.size, new.byte x = old.byte x
  zero : ∀ x, old.size ≤ x → x < new.size → new.byte x = 0
  size : old.size ≤ new.size

theorem Preserved.refl {inode : Inode} : Preserved inode inode :=
  ⟨fun _ _ => rfl, fun _ hx hx' => absurd hx' (by omega), le_rfl⟩

/-! ## One page -/

theorem readExisting_inode (f : Opened) (source : Option Handle) (position existing : Nat) (io : ReadIo) :
    (readExisting f source position existing io).1.inode = f.inode := by
  unfold readExisting
  split
  · rfl
  split
  · rfl
  rename_i g hseek
  have hinode : (ext4Fread g existing io).1.inode = f.inode := by
    rw [ext4Fread_inode, ext4Fseek_ok hseek]
  simp only
  cases source with
  | none => cases (ext4Fread g existing io).2 <;> exact hinode
  | some => cases (ext4Fread g existing io).2 <;> rfl

/-- What is read back, if it is all that is asked for. -/
theorem readExisting_ok {f : Opened} {source : Option Handle} {position existing : Nat} {io : ReadIo}
    {bytes : List UInt8} (h : (readExisting f source position existing io).2.2 = .ok bytes) :
    bytes = (range existing).map fun i => (f.inode.bytes (position + i)).getD (io.hole (position + i)) := by
  unfold readExisting at h
  split at h
  · rename_i hzero
    cases h
    rw [hzero]
    rfl
  rcases hseek : ext4Fseek ⟨f.inode, source.getD f.handle⟩ position with _ | g
  · rw [hseek] at h
    cases h
  rw [hseek] at h
  simp only at h
  rcases hread : (ext4Fread g existing io).2 with _ | got
  · rw [hread] at h
    cases h
  rw [hread] at h
  simp only at h
  split_ifs at h with hfull
  cases h
  have hgot := ext4Fread_ok hread
  rw [ext4Fseek_ok hseek] at hgot
  have hlen := congrArg List.length hgot
  rw [length_map, length_range, hfull] at hlen
  rw [hgot, ← hlen]

theorem store_byte {new : Inode} {position n size : Nat} {bytes : List UInt8} {fresh : Nat → Option UInt8}
    (hfresh : ∀ x b, fresh x = some b → b = 0) (x : Nat) :
    (⟨size, new.store position bytes n fresh⟩ : Inode).byte x =
      if position ≤ x ∧ x < position + n then bytes.getD (x - position) 0 else new.byte x := by
  show (new.store position bytes n fresh x).getD 0 = _
  unfold Inode.store
  split_ifs with hx
  · rfl
  unfold Inode.byte
  cases hb : new.bytes x with
  | some => rfl
  | none =>
    cases hf : fresh x with
    | some b => exact hfresh x b hf
    | none => rfl

namespace Filling

variable {c : Filling} {k : Nat}

theorem length_page (inode : Inode) : (c.page inode k).length = c.transfer.chunk k := by
  unfold page existing
  rw [length_append, length_map, length_range, length_replicate]
  omega

theorem getD_page (inode : Inode) {i : Nat} (hi : i < c.transfer.chunk k) :
    (c.page inode k).getD i 0 = if i < c.existing k then c.found inode k i else 0 := by
  unfold page
  split_ifs with hex
  · rw [getD_append _ _ _ _ (by rw [length_map, length_range]; exact hex), getD_eq_getElem?_getD, getElem?_map,
      getElem?_range hex]
    rfl
  · rw [getD_append_right _ _ _ _ (by rw [length_map, length_range]; omega), length_map, length_range,
      getD_replicate _ (by omega)]

theorem stores_le (c : Filling) (k : Nat) : c.stores k ≤ c.transfer.chunk k := by
  unfold stores WriteEnd.stored
  split <;> omega

/-- What page `k` returns, and the file behind it. -/
theorem page_cases (ho : OrderlyIo c.ios) (k : Nat) :
    ¬ c.Writes k ∧ (∃ e, c.transfer.result k = .error e) ∧ c.inode (k + 1) = c.inode k ∨
    c.Writes k ∧
      ((∃ e, c.transfer.result k = .error e) ∨
        c.transfer.result k = .ok (c.transfer.chunk k) ∧ c.stores k = c.transfer.chunk k) ∧
      c.inode (k + 1) = ⟨max (c.inode k).size (c.place k + c.stores k),
        (c.inode k).store (c.place k) (c.page (c.inode k) k) (c.stores k) (c.ios k).2.fresh⟩ := by
  have hpiece : c.transfer.piece k (c.transfer.unit * k) (c.transfer.chunk k) (c.transfer.state k) =
      fallocatePiece c.file.handle.fsize c.offset c.ios k (pgsize * k) (c.transfer.chunk k) (c.opened k) := rfl
  rw [show c.inode (k + 1) = (c.transfer.piece k _ _ (c.transfer.state k)).1.1.inode from rfl, Transfer.result, hpiece]
  have hinode := readExisting_inode (c.opened k).1 (c.opened k).2 (c.place k) (c.existing k) (c.ios k).1
  unfold fallocatePiece Writes
  simp only [show c.offset + pgsize * k = c.place k from rfl,
    show min (c.transfer.chunk k) (c.file.handle.fsize - c.place k) = c.existing k from rfl]
  rcases hread : readExisting (c.opened k).1 (c.opened k).2 (c.place k) (c.existing k) (c.ios k).1 with
    ⟨f, source, e | bytes⟩
  · rw [hread] at hinode
    exact .inl ⟨fun ⟨⟨_, h⟩, _⟩ => (nomatch h), ⟨e, rfl⟩, hinode⟩
  rw [hread] at hinode
  simp only
  by_cases hseek : c.place k < 2 ^ 63
  swap
  · rw [show ext4Fseek f (c.place k) = .error .inval from if_neg hseek]
    exact .inl ⟨fun h => hseek h.2.1, ⟨_, rfl⟩, hinode⟩
  rw [show ext4Fseek f (c.place k) = .ok { f with handle := { f.handle with fpos := c.place k } } from if_pos hseek]
  have hpage : bytes ++ replicate (c.transfer.chunk k - c.existing k) 0 = c.page (c.inode k) k :=
    congrArg (· ++ _) (readExisting_ok (congrArg (·.2.2) hread))
  simp only [hpage]
  by_cases hlost : ∃ e, (c.ios k).2.stop = .lost e
  · obtain ⟨e, he⟩ := hlost
    refine .inl ⟨fun h => h.2.2 e he, ?_⟩
    unfold ext4Fwrite
    rw [he]
    exact ⟨⟨e, rfl⟩, hinode⟩
  have hlost : ∀ e, (c.ios k).2.stop ≠ .lost e := fun e he => hlost ⟨e, he⟩
  obtain ⟨hnew, hresult⟩ := ext4Fwrite_whole { f with handle := { f.handle with fpos := c.place k } }
    (c.page (c.inode k) k) (ho.whole k) hlost
  rw [length_page] at hnew hresult
  refine .inr ⟨⟨⟨bytes, rfl⟩, hseek, hlost⟩, ?_⟩
  generalize ext4Fwrite { f with handle := { f.handle with fpos := c.place k } } (c.page (c.inode k) k)
    (c.ios k).2 = r at hnew hresult ⊢
  have hinode : f.inode = c.inode k := hinode
  rw [hinode] at hnew
  rcases r with ⟨f', e | n⟩
  · exact ⟨.inl ⟨e, rfl⟩, hnew⟩
  obtain rfl : n = c.stores k := by
    cases hput : (c.ios k).2.put with
    | some e => rw [hput] at hresult; cases hresult
    | none => rw [hput] at hresult; exact Except.ok.inj hresult
  refine ⟨?_, hnew⟩
  simp only
  split_ifs with hpart
  · exact .inl ⟨_, rfl⟩
  · exact .inr ⟨congrArg _ (not_not.mp hpart), not_not.mp hpart⟩

/-- The file behind page `k`. -/
theorem inode_succ (ho : OrderlyIo c.ios) (hk : c.Writes k) :
    c.inode (k + 1) = ⟨max (c.inode k).size (c.place k + c.stores k),
      (c.inode k).store (c.place k) (c.page (c.inode k) k) (c.stores k) (c.ios k).2.fresh⟩ := by
  rcases page_cases ho k with ⟨hn, -⟩ | ⟨-, -, h⟩
  · exact absurd hk hn
  · exact h

theorem result_ok (ho : OrderlyIo c.ios) {n : Nat} (h : c.transfer.result k = .ok n) :
    c.Writes k ∧ n = c.transfer.chunk k ∧ c.stores k = c.transfer.chunk k := by
  rcases page_cases ho k with ⟨-, ⟨e, he⟩, -⟩ | ⟨hwrites, ⟨e, he⟩ | ⟨hok, hstores⟩, -⟩
  · cases h.symm.trans he
  · cases h.symm.trans he
  · exact ⟨hwrites, Except.ok.inj (h.symm.trans hok), hstores⟩

/-- Between two pages: the size has followed, and before the range and from page `k` on the file is as it was. -/
structure Before (c : Filling) (k : Nat) : Prop where
  size : (c.inode k).size = if k = 0 then c.file.inode.size else max c.file.inode.size (c.place k)
  rest : ∀ x, x < c.offset ∨ c.place k ≤ x → (c.inode k).byte x = c.file.inode.byte x

theorem before_of_reached (ho : OrderlyIo c.ios) (hk : c.transfer.Reached k) : c.Before k := by
  induction k with
  | zero => exact ⟨rfl, fun _ _ => rfl⟩
  | succ k ih =>
    obtain ⟨hwrites, -, hstores⟩ := result_ok ho (hk.2 k (Nat.lt_succ_self k)).2
    obtain ⟨hsize, hrest⟩ := ih (Transfer.reached_of_whole hk.2 (Nat.lt_succ_self k))
    have hplace : c.place (k + 1) = c.place k + pgsize := by
      unfold place
      rw [mul_add, mul_one, add_assoc]
    have hpos := pgsize_pos
    have hlt : pgsize * (k + 1) < c.transfer.count := hk.1
    have hchunk : c.transfer.chunk k = pgsize := by
      show min (c.transfer.count - pgsize * k) pgsize = pgsize
      rw [mul_add, mul_one] at hlt
      omega
    have hle : c.offset ≤ c.place k := Nat.le_add_right _ _
    refine ⟨?_, fun x hx => ?_⟩
    · rw [inode_succ ho hwrites, if_neg (Nat.succ_ne_zero k), hplace]
      show max (c.inode k).size _ = _
      rw [hsize]
      split <;> omega
    · rw [inode_succ ho hwrites, store_byte (ho.fresh k), if_neg (by omega)]
      exact hrest x (by omega)

/-- A page more. -/
theorem Before.preserved_succ (ho : OrderlyIo c.ios) (h : c.Before k) (hk : c.Writes k) :
    Preserved c.file.inode (c.inode (k + 1)) ↔ Preserved c.file.inode (c.inode k) ∧ c.Gap ∧ c.Right k := by
  have hle := c.stores_le k
  have hsize := h.size
  have hoff : c.offset ≤ c.place k := Nat.le_add_right _ _
  have hfirst : k = 0 → c.place k = c.offset := by
    rintro rfl
    rfl
  have hin {i : Nat} (hi : i < c.stores k) : (c.inode (k + 1)).byte (c.place k + i) =
      if i < c.existing k then c.found (c.inode k) k i else 0 := by
    rw [inode_succ ho hk, store_byte (ho.fresh k), if_pos (by omega), Nat.add_sub_cancel_left,
      getD_page _ (by omega)]
  have hout {x : Nat} (hx : ¬ (c.place k ≤ x ∧ x < c.place k + c.stores k)) :
      (c.inode (k + 1)).byte x = (c.inode k).byte x := by
    rw [inode_succ ho hk, store_byte (ho.fresh k), if_neg hx]
  have hsize' : (c.inode (k + 1)).size = max (c.inode k).size (c.place k + c.stores k) := by rw [inode_succ ho hk]
  constructor
  · rintro ⟨hbelow, hzero, -⟩
    refine ⟨⟨fun x hx => ?_, fun x hx hx' => ?_, by split at hsize <;> omega⟩, fun x hx hx' => ?_, fun i hi => ?_⟩
    · by_cases hp : c.place k ≤ x
      · exact h.rest x (.inr hp)
      · rw [← hout (by omega)]
        exact hbelow x hx
    · -- the file has grown to page `k` at most
      have hp : x < c.place k := by split at hsize <;> omega
      rw [← hout (by omega)]
      exact hzero x hx (by omega)
    · rw [← h.rest x (.inl hx'), ← hout (by omega)]
      exact hzero x hx (by omega)
    · rw [← hin hi]
      split_ifs with hx
      · exact hbelow _ hx
      · exact hzero _ (by omega) (by omega)
  · rintro ⟨⟨hbelow, hzero, hle'⟩, hgap, hright⟩
    have hwritten {x : Nat} (hx : c.place k ≤ x ∧ x < c.place k + c.stores k) :
        (c.inode (k + 1)).byte x = if x < c.file.inode.size then c.file.inode.byte x else 0 := by
      obtain ⟨i, rfl⟩ := Nat.exists_eq_add_of_le hx.1
      rw [hin (by omega), hright i (by omega)]
    refine ⟨fun x hx => ?_, fun x hx hx' => ?_, by omega⟩
    · by_cases hp : c.place k ≤ x ∧ x < c.place k + c.stores k
      · rw [hwritten hp, if_pos hx]
      · rw [hout hp, hbelow x hx]
    · by_cases hp : c.place k ≤ x ∧ x < c.place k + c.stores k
      · rw [hwritten hp, if_neg (by omega)]
      rw [hout hp]
      by_cases hold : x < (c.inode k).size
      · exact hzero x hx hold
      · -- only the first page may begin behind the end
        have hoffset : x < c.offset := by split at hsize <;> omega
        rw [h.rest x (.inl hoffset)]
        exact hgap x hx hoffset

/-- The pages before `k` keep the file exactly if they are right. -/
theorem preserved_iff (ho : OrderlyIo c.ios) (h : ∀ j < k, c.transfer.Whole j) :
    Preserved c.file.inode (c.inode k) ↔ ∀ j < k, c.Gap ∧ c.Right j := by
  induction k with
  | zero => exact ⟨fun _ => nofun, fun _ => .refl⟩
  | succ k ih =>
    have hk := Transfer.reached_of_whole h (Nat.lt_succ_self k)
    obtain ⟨hwrites, -⟩ := result_ok ho (h k (Nat.lt_succ_self k)).2
    rw [(before_of_reached ho hk).preserved_succ ho hwrites, ih hk.2, Nat.forall_lt_succ_right]

/-- **The loop loses nothing exactly if its pages are right**; at its regular end the whole range is in the file. -/
theorem preserves_iff (ho : OrderlyIo c.ios) (hlen : 0 < c.length) :
    (Preserved c.file.inode c.transfer.run.1.1.inode ↔ c.Sound) ∧
      (c.transfer.run.2.2 = none → c.offset + c.length ≤ c.transfer.run.1.1.inode.size) := by
  have hends := Transfer.run_ends (t := c.transfer) fun _ => pgsize_pos
  generalize c.transfer.run = r at hends ⊢
  have hwrites {k j : Nat} (h : ∀ j < k, c.transfer.Whole j) (hj : j < k) := (result_ok ho (h j hj).2).1
  cases hends with
  | full k before last =>
    have hreached (j : Nat) := Transfer.reached_iff_lt (j := j) before last
    refine ⟨(preserved_iff ho before).trans ?_, fun _ => ?_⟩
    · exact ⟨fun h j hj _ => h j ((hreached j).mp hj), fun h j hj => h j ((hreached j).mpr hj) (hwrites before hj)⟩
    · cases k with
      | zero => exact absurd hlen (Nat.not_lt.mpr last)
      | succ k =>
        have hk := (hreached k).mpr (Nat.lt_succ_self k)
        obtain ⟨hwrites, -, hstores⟩ := result_ok ho (before k (Nat.lt_succ_self k)).2
        show _ ≤ (c.inode (k + 1)).size
        rw [inode_succ ho hwrites, hstores]
        show _ ≤ max _ (c.offset + pgsize * k + c.transfer.chunk k)
        rw [add_assoc, show pgsize * k + c.transfer.chunk k = c.length from hk.total.trans (min_eq_right last)]
        exact le_max_right _ _
  | failed k hk e fails =>
    have hreached (j : Nat) := hk.reached_iff_le (j := j) fun hw => (nomatch fails.symm.trans hw.2)
    refine ⟨?_, nofun⟩
    show Preserved c.file.inode (c.inode (k + 1)) ↔ _
    by_cases hw : c.Writes k
    · rw [(before_of_reached ho hk).preserved_succ ho hw, preserved_iff ho hk.2]
      refine ⟨fun h j hj _ => ?_, fun h => ⟨fun j hj => ?_, h k hk hw⟩⟩
      · rcases ((hreached j).mp hj).lt_or_eq with hlt | rfl
        · exact h.1 j hlt
        · exact h.2
      · exact h j ((hreached j).mpr hj.le) (hwrites hk.2 hj)
    · have hsame : c.inode (k + 1) = c.inode k := by
        rcases page_cases ho k with ⟨-, -, h⟩ | ⟨h, -⟩
        · exact h
        · exact absurd h hw
      rw [hsame, preserved_iff ho hk.2]
      refine ⟨fun h j hj hwj => h j ?_, fun h j hj => h j ((hreached j).mpr hj.le) (hwrites hk.2 hj)⟩
      rcases ((hreached j).mp hj).lt_or_eq with hlt | rfl
      · exact hlt
      · exact absurd hwj hw
  | short k hk n moves part => exact absurd (result_ok ho moves).2.1 part

end Filling

/-! ## The main result -/

/-- The handle that the call opens for reading. -/
def readHandle (f : Opened) (offset : Nat) : Option Handle :=
  if offset < f.handle.fsize && f.handle.wronly then some (ext4Fopen f.inode false) else none

/-- The call is not refused before it comes to the loop. -/
structure Admitted (f : Opened) (writable : Bool) (offset length : Nat) (writeback privileges : Bool)
    (reopen : Option Errno) : Prop where
  range : 0 < length ∧ offset ≤ 2 ^ 64 - 1 - length
  allowed : writable = true ∧ writeback = true ∧ privileges = true
  reopened : (readHandle f offset).isSome → reopen = none

/-- A call that comes to the loop is the loop, and one that does not is refused. -/
theorem vfsFallocate_cases (f : Opened) (writable : Bool) (offset length : Nat) (writeback privileges : Bool)
    (reopen : Option Errno) (ios : Nat → ReadIo × WriteIo) :
    let r := vfsFallocate f writable offset length writeback privileges reopen ios
    let loop := (fallocateTransfer f (readHandle f offset) offset length ios).run
    Admitted f writable offset length writeback privileges reopen ∧ r.1 = loop.1.1 ∧
      (r.2 = .ok () → loop.2.2 = none) ∨
    ¬ Admitted f writable offset length writeback privileges reopen ∧ r.1 = f ∧ r.2 ≠ .ok () := by
  intro r loop
  unfold r vfsFallocate
  split_ifs with hrange hw hb hp
  · refine .inr ⟨fun h => ?_, rfl, nofun⟩
    have := h.range
    simp only [Bool.or_eq_true, decide_eq_true_eq] at hrange
    omega
  · exact .inr ⟨fun h => by simp [h.allowed.1] at hw, rfl, nofun⟩
  · exact .inr ⟨fun h => by simp [h.allowed.2.1] at hb, rfl, nofun⟩
  · exact .inr ⟨fun h => by simp [h.allowed.2.2] at hp, rfl, nofun⟩
  simp only [Bool.or_eq_true, decide_eq_true_eq, not_or] at hrange
  simp only [Bool.not_eq_true, Bool.not_eq_false'] at hw hb hp
  have hadmitted (h : (readHandle f offset).isSome → reopen = none) :
      Admitted f writable offset length writeback privileges reopen := ⟨by omega, ⟨hw, hb, hp⟩, h⟩
  have hrun (source : Option Handle) (h : readHandle f offset = source) :
      let out : Opened × Except VfsError Unit :=
        match (fallocateTransfer f source offset length ios).run with
        | ((f, _), _, some e) => (f, .error (ext4fsResult e))
        | ((f, _), _, none) => (f, .ok ())
      out.1 = loop.1.1 ∧ (out.2 = .ok () → loop.2.2 = none) := by
    unfold loop
    rw [h]
    rcases (fallocateTransfer f source offset length ios).run with ⟨⟨f', _⟩, _, _ | e⟩
    · exact ⟨rfl, fun _ => rfl⟩
    · exact ⟨rfl, nofun⟩
  unfold ext4fsFallocate
  simp only [if_neg hrange.1]
  split_ifs with hopen
  · have hsource : readHandle f offset = some (ext4Fopen f.inode false) := if_pos hopen
    cases reopen with
    | some e => exact .inr ⟨fun h => (nomatch h.reopened (by rw [hsource]; rfl)), rfl, nofun⟩
    | none => exact .inl ⟨hadmitted fun _ => rfl, hrun _ hsource⟩
  · have hsource : readHandle f offset = none := if_neg hopen
    exact .inl ⟨hadmitted fun h => absurd h (by rw [hsource]; decide), hrun _ hsource⟩

/-- Transfers that the device lets through, with new blocks that hold zeros. -/
def plainIo : Nat → ReadIo × WriteIo := fun _ => (⟨.done, fun _ => 0⟩, ⟨.done, none, fun _ => some 0⟩)

/-- A new file. -/
def emptyFile : Inode := ⟨0, fun _ => none⟩

/-- The file after a descriptor of its own has written to it. -/
def written (bytes : List UInt8) : Inode :=
  (ext4Fwrite ⟨emptyFile, ext4Fopen emptyFile false⟩ bytes (plainIo 0).2).1.inode

theorem plainIo_orderly : OrderlyIo plainIo := ⟨fun _ _ _ hb => (Option.some.inj hb).symm, fun _ _ _ => nofun⟩

end Caffeinix.Ext4
