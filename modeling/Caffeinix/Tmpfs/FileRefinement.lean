import Caffeinix.Mm.Machine
import Caffeinix.Tmpfs.File

/-!
# `Tmpfs.FileRefinement` — a tmpfs file is an array of bytes

The array is a `Mm.File` with nothing behind its end. What a call does to it is what the call
reports (`effect`): a write that returns `n > 0` sets `n` bytes, a write that returns 0 or an error sets none.
`Refines` relates the pages to the array; every call keeps it.

Two kinds of write do something they do not report: one whose copy fails inside a piece leaves the bytes copied
so far in the page, where they may come into the file later; one that starts behind the end and transfers nothing
makes the file longer. `Clean` excludes them.
-/

namespace Caffeinix.Tmpfs

open List PagedBytes Runs
open Node (run new step)

/-- The array with no bytes. -/
def noBytes : Mm.File := ⟨0, fun _ => 0⟩

/-- What the call has done to the array, from what it has returned. -/
def effect (file : Mm.File) (status : Int) : Step → Mm.File
  | .read .. => file
  | .write position _ source _ => if 0 < status then file.write position status.toNat 0 source else file
  | .truncate size => file.clean.truncate size
  | .fallocate offset length _ => if status = 0 ∧ length ≠ 0 then file.fallocate offset length else file

/-- The array that the calls so far have reported. -/
def reported (l : List Step) : Mm.File :=
  record step (fun node file a => effect file (node.serve a).2.status a) new noBytes l

/-- A write does only what it reports: no copy fails inside a piece, and a write behind the end is refused for
    its length or transfers at least its first piece. -/
def Clean (node : Node) : Step → Prop
  | .write position count _ piece =>
    (∀ k m, (piece k).fault = some m → m = 0) ∧
      (position ≤ node.size ∨ count > 2 ^ 64 - 1 - position ∨
        0 < count ∧ (piece 0).alloc = true ∧ (piece 0).fault = none)
  | _ => True

/-- The file has this size and its pages hold these bytes; no page is there twice, and the count is right. -/
structure Holds (node : Node) (size : Nat) (data : Nat → UInt8) : Prop where
  size : node.size = size
  bytes : ∀ x, node.byte x = data x
  distinct : Distinct node.pages
  count : node.pageCount = node.pages.length

/-- The file is the array, with zeros in the pages behind the end. -/
structure Refines (node : Node) (file : Mm.File) : Prop extends Holds node file.size file.data where
  zeros : ∀ x, file.size ≤ x → file.data x = 0

variable {node : Node} {file : Mm.File} {size : Nat} {data : Nat → UInt8}

/-! ## Pages -/

/-- Getting a page changes no byte. -/
theorem Holds.getPage (h : Holds node size data) (index : Nat) (alloc : Bool) :
    Holds (tmpfsGetPage node index alloc).1 size data ∧
      ((tmpfsGetPage node index alloc).2 = true → (find (tmpfsGetPage node index alloc).1.pages index).isSome) := by
  unfold tmpfsGetPage
  cases hfind : find node.pages index with
  | some => exact ⟨h, fun _ => by rw [hfind]; rfl⟩
  | none =>
    cases alloc with
    | false => exact ⟨h, nofun⟩
    | true =>
      refine ⟨⟨h.size, fun x => (byte_zero hfind x).trans (h.bytes x), h.distinct.zero hfind, ?_⟩, fun _ => ?_⟩
      · show node.pageCount + 1 = node.pages.length + 1
        rw [h.count]
      · show (find (.zero index :: node.pages) index).isSome
        rw [find_cons, if_pos (show (Page.zero index).index = index from rfl)]
        rfl

/-! ## Reading -/

/-- What a read that begins inside the array may return: a first part of what it asks for, and all of it if no
    copy fails. -/
structure Returns (file : Mm.File) (position count : Nat) (fault : Nat → Bool) (r : Outcome) : Prop where
  bytes : r.bytes = (range r.bytes.length).map fun i => file.data (position + i)
  length : r.bytes.length ≤ count
  status : r.status = r.bytes.length ∨ r.bytes = [] ∧ r.status = VfsError.fault.code
  whole : (∀ k, fault k = false) → r.bytes.length = count ∧ r.status = r.bytes.length

variable {count position : Nat} {source : Nat → UInt8} {piece : Nat → Piece}

theorem readLoop_returns (hbytes : ∀ x, node.byte x = file.data x) {fault : Nat → Bool} :
    ∀ (fuel k : Nat) (out : List UInt8), out = (range out.length).map (fun i => file.data (position + i)) →
    out.length ≤ count → count ≤ fuel + out.length →
    Returns file position count fault (readLoop node count fault fuel k (position + out.length) out) := by
  intro fuel
  induction fuel with
  | zero => exact fun k out hout hlen hfuel => ⟨hout, hlen, .inl rfl, fun _ => ⟨by
      show out.length = count
      omega, rfl⟩⟩
  | succ fuel ih =>
    intro k out hout hlen hfuel
    unfold readLoop
    by_cases hend : count ≤ out.length
    · rw [if_pos hend]
      exact ⟨hout, hlen, .inl rfl, fun _ => ⟨le_antisymm hlen hend, rfl⟩⟩
    rw [if_neg hend]
    have hmod := Nat.mod_lt (position + out.length) pgsize_pos
    set offset := (position + out.length) % pgsize with hoffset
    set chunk := min (count - out.length) (pgsize - offset) with hchunk
    cases hfault : fault k with
    | true =>
      rw [if_pos rfl]
      refine ⟨hout, hlen, ?_, fun hno => absurd (hno k) (by rw [hfault]; decide)⟩
      by_cases hzero : out.length = 0
      · exact .inr ⟨length_eq_zero_iff.mp hzero, if_neg (not_not.mpr hzero)⟩
      · exact .inl (if_pos hzero)
    | false =>
      rw [if_neg Bool.false_ne_true]
      -- the piece lies in one page, so it is the bytes of the array that follow
      have hpiece : (range chunk).map (pageSource node (position + out.length)) =
          (range chunk).map fun i => file.data (position + (out.length + i)) := by
        refine map_congr_left fun i hi => ?_
        have hi := mem_range.mp hi
        have hinside : (position + out.length) % pgsize + i < pgsize := by omega
        rw [← add_assoc, ← hbytes]
        unfold Node.byte pageSource
        rw [byte_inside hinside]
        cases find node.pages ((position + out.length) / pgsize) <;> rfl
      rw [hpiece]
      have hlen' : (out ++ (range chunk).map fun i => file.data (position + (out.length + i))).length =
          out.length + chunk := by
        rw [length_append, length_map, length_range]
      have hnext := ih (k + 1) (out ++ (range chunk).map fun i => file.data (position + (out.length + i)))
        (by
          rw [hlen', range_add, map_append, map_map, ← hout]
          rfl)
        (by omega) (by omega)
      rw [hlen', ← add_assoc] at hnext
      exact hnext

/-- **Reading** returns the array clipped to its size. -/
theorem Refines.read (h : Refines node file) (position count : Nat) (fault : Nat → Bool) :
    Returns file position (min count (file.size - position)) fault (tmpfsRead node position count fault) := by
  unfold tmpfsRead
  rw [h.size]
  split
  · refine ⟨rfl, Nat.zero_le _, .inl rfl, fun _ => ⟨?_, rfl⟩⟩
    show 0 = _
    omega
  · exact readLoop_returns h.bytes _ 0 [] rfl (Nat.zero_le _) (Nat.le_add_right _ _)

/-! ## Writing -/

/-- `n` more bytes in the page at `position + total`. -/
theorem Holds.copy {total n : Nat} (h : Holds node size (file.write position total 0 source).data)
    (hfound : (find node.pages ((position + total) / pgsize)).isSome)
    (hn : (position + total) % pgsize + n ≤ pgsize) :
    Holds ⟨node.size, fill node.pages ((position + total) / pgsize) ((position + total) % pgsize) n
      fun i => source (total + i), node.pageCount⟩ size (file.write position (total + n) 0 source).data := by
  refine ⟨h.size, fun x => ?_, h.distinct.fill _ _ _ _, h.count.trans (length_fill _ _ _ _ _).symm⟩
  have hx : byte pgsize node.pages x = _ := h.bytes x
  show byte pgsize (fill _ _ _ _ _) x = _
  rw [byte_fill pgsize_pos hfound hn, hx]
  show (if position + total ≤ x ∧ x < position + total + n then source (total + (x - (position + total)))
      else if position ≤ x ∧ x < position + total then source (x - position) else file.data x) =
    if position ≤ x ∧ x < position + (total + n) then source (x - position) else file.data x
  by_cases hnew : position + total ≤ x ∧ x < position + total + n
  · rw [if_pos hnew, if_pos (by omega), show total + (x - (position + total)) = x - position by omega]
  · rw [if_neg hnew]
    by_cases hold : position ≤ x ∧ x < position + total
    · rw [if_pos hold, if_pos (by omega)]
    · rw [if_neg hold, if_neg (by omega)]

/-- **The loop of a write**: what it has counted is in the pages, and the position has moved by it; where the
    first piece comes through something is counted. -/
theorem writeLoop_holds (hclean : ∀ k m, (piece k).fault = some m → m = 0) :
    ∀ (fuel k : Nat) (node : Node) (total : Nat),
    Holds node size (file.write position total 0 source).data → count ≤ fuel + total →
    let r := writeLoop count source piece fuel k node (position + total) total
    Holds r.1 size (file.write position r.2.2.1 0 source).data ∧ r.2.1 = position + r.2.2.1 ∧ total ≤ r.2.2.1 ∧
      (total < count → (piece k).alloc = true → (piece k).fault = none → total < r.2.2.1) := by
  intro fuel
  induction fuel with
  | zero => exact fun k node total h hfuel => ⟨h, rfl, le_rfl, fun hlt => absurd hlt (by omega)⟩
  | succ fuel ih =>
    intro k node total h hfuel
    unfold writeLoop
    split
    · exact ⟨h, rfl, le_rfl, fun hlt => absurd hlt (by omega)⟩
    have hmod := Nat.mod_lt (position + total) pgsize_pos
    set chunk := min (count - total) (pgsize - (position + total) % pgsize) with hchunk
    obtain ⟨hget, hfound⟩ := h.getPage ((position + total) / pgsize) (piece k).alloc
    have halloc : (piece k).alloc = true →
        (tmpfsGetPage node ((position + total) / pgsize) (piece k).alloc).2 = true := by
      intro ha
      unfold tmpfsGetPage
      rw [ha]
      cases find node.pages ((position + total) / pgsize) <;> rfl
    rcases hpage : tmpfsGetPage node ((position + total) / pgsize) (piece k).alloc with ⟨node', found⟩
    rw [hpage] at hget hfound halloc
    cases found with
    | false => exact ⟨hget, rfl, le_rfl, fun _ ha => nomatch halloc ha⟩
    | true =>
      have hfound := hfound rfl
      cases hfault : (piece k).fault with
      | some m =>
        -- nothing of this piece has been copied
        obtain rfl : m = 0 := hclean k m hfault
        have hcopy := hget.copy (n := 0) hfound (by omega)
        simp only [zero_min]
        exact ⟨hcopy, trivial, le_rfl, nofun⟩
      | none =>
        have hcopy := hget.copy (n := chunk) hfound (by omega)
        obtain ⟨hheld, hpos, hle, -⟩ := ih (k + 1) _ (total + chunk) hcopy (by omega)
        rw [← add_assoc position total chunk] at hheld hpos hle
        exact ⟨hheld, hpos, (Nat.le_add_right _ _).trans hle, fun _ _ _ => (by omega :
          total < total + chunk).trans_le hle⟩

theorem Refines.write (h : Refines node file) (hclean : Clean node (.write position count source piece)) :
    Refines (tmpfsWrite node position count source piece).1
      (effect file (tmpfsWrite node position count source piece).2.status (.write position count source piece)) := by
  have hstart : Holds node file.size (file.write position 0 0 source).data := by
    refine ⟨h.size, fun x => ?_, h.distinct, h.count⟩
    rw [h.bytes x]
    exact (if_neg (by omega)).symm
  obtain ⟨hheld, hpos, -, hfirst⟩ := writeLoop_holds hclean.1 count 0 node 0 hstart (Nat.le_add_right _ _)
  unfold tmpfsWrite effect
  by_cases hlong : count > 2 ^ 64 - 1 - position
  · rw [if_pos hlong]
    exact h
  rw [if_neg hlong]
  simp only
  rw [add_zero] at hheld hpos hfirst
  generalize writeLoop count source piece count 0 node position 0 = r at hheld hpos hfirst
  by_cases hzero : r.2.2.1 = 0
  · -- nothing transferred: then the write has begun inside the file
    have hstatus : (if r.2.2.1 ≠ 0 then (r.2.2.1 : Int) else if count ≠ 0 then r.2.2.2.code else 0) ≤ 0 := by
      rw [if_neg (not_not.mpr hzero)]
      split_ifs
      · exact r.2.2.2.code_neg.le
      · exact le_rfl
    rw [if_neg (not_lt.mpr hstatus)]
    have hinside : position ≤ node.size := by
      rcases hclean.2 with hin | hrefused | ⟨hcount, ha, hf⟩
      · exact hin
      · exact absurd hrefused hlong
      · have := hfirst hcount ha hf
        omega
    rw [h.size] at hinside
    rw [hzero] at hheld hpos
    refine ⟨⟨?_, fun x => (hheld.bytes x).trans (if_neg (by omega)), hheld.distinct, hheld.count⟩, h.zeros⟩
    show max r.1.size r.2.1 = file.size
    rw [hheld.size, hpos]
    omega
  · have hstatus : (if r.2.2.1 ≠ 0 then (r.2.2.1 : Int) else if count ≠ 0 then r.2.2.2.code else 0) = r.2.2.1 :=
      if_pos hzero
    rw [hstatus, if_pos (by omega), Int.toNat_natCast]
    refine ⟨⟨?_, hheld.bytes, hheld.distinct, hheld.count⟩, fun x hx => ?_⟩
    · show max r.1.size r.2.1 = max file.size (position + r.2.2.1)
      rw [hheld.size, hpos]
    · have hx := Nat.max_le.mp hx
      exact (if_neg (by omega)).trans (h.zeros x hx.1)

/-! ## Changing the size -/

theorem Refines.truncate (h : Refines node file) (size : Nat) :
    Refines (tmpfsTruncate node size).1 (file.clean.truncate size) := by
  have hdata : ∀ x, (file.clean.truncate size).data x = if x < size then file.data x else 0 := by
    intro x
    show (if size < file.size ∧ size ≤ x then 0 else if x < file.size then file.data x else 0) = _
    by_cases hx : x < file.size
    · rw [if_pos hx]
      by_cases hs : x < size
      · rw [if_neg (by omega), if_pos hs]
      · rw [if_pos (by omega), if_neg hs]
    · rw [if_neg hx, ite_self, h.zeros x (by omega), ite_self]
  refine ⟨?_, fun x hx => (hdata x).trans (if_neg (not_lt.mpr hx))⟩
  unfold tmpfsTruncate
  split
  · have hcut := fun x => byte_cut node.pages size pgsize_pos x
    have hbytes : ∀ x, (if x < size then byte pgsize node.pages x else 0) = (file.clean.truncate size).data x :=
      fun x => by rw [show byte pgsize node.pages x = file.data x from h.bytes x, hdata]
    have hcount : ∀ stays : Page → Bool, node.pageCount - (node.pages.length -
        (node.pages.filter stays).length) = (node.pages.filter stays).length := by
      intro stays
      have hle := length_filter_le stays node.pages
      rw [h.count]
      omega
    by_cases hoffset : size % pgsize = 0
    · -- nothing to clear, which is the same as clearing a page that is not there
      simp only [if_neg (not_not.mpr hoffset)]
      refine ⟨rfl, fun x => ?_, h.distinct.filter _, hcount _⟩
      rw [← hbytes, ← hcut, fill_absent]
      · rfl
      · intro p hp hidx
        have hlt := of_decide_eq_true (mem_filter.mp hp).2
        rw [if_pos hoffset, hidx] at hlt
        omega
    · simp only [if_pos hoffset]
      refine ⟨rfl, fun x => (hcut x).trans (hbytes x), (h.distinct.filter _).fill _ _ _ _, ?_⟩
      rw [length_fill]
      exact hcount _
  · refine ⟨rfl, fun x => (h.bytes x).trans ((hdata x).trans ?_).symm, h.distinct, h.count⟩
    split_ifs with hx
    · rfl
    · have hsize := h.size
      exact (h.zeros x (by omega)).symm

theorem fallocateLoop_holds (alloc : Nat → Bool) : ∀ (n index : Nat) (node : Node), Holds node size data →
    Holds (fallocateLoop alloc n index node).1 size data := by
  intro n
  induction n with
  | zero => exact fun index node h => h
  | succ n ih =>
    intro index node h
    have hget := (h.getPage index (alloc index)).1
    unfold fallocateLoop
    rcases hpage : tmpfsGetPage node index (alloc index) with ⟨node', found⟩
    rw [hpage] at hget
    cases found with
    | false => exact hget
    | true => exact ih (index + 1) node' hget

theorem Refines.fallocate (h : Refines node file) (offset length : Nat) {alloc : Nat → Bool} :
    Refines (tmpfsFallocate node offset length alloc).1
      (effect file (tmpfsFallocate node offset length alloc).2.status (.fallocate offset length alloc)) := by
  unfold tmpfsFallocate
  split_ifs with hlen
  · unfold effect
    simp only [hlen, ne_eq, not_true_eq_false, and_false, if_false]
    exact h
  have hloop := fallocateLoop_holds alloc ((offset + length - 1) / pgsize + 1 - offset / pgsize) (offset / pgsize)
    node h.toHolds
  simp only
  rcases hrun : fallocateLoop alloc ((offset + length - 1) / pgsize + 1 - offset / pgsize) (offset / pgsize) node
    with ⟨node', done⟩
  rw [hrun] at hloop
  cases done with
  | true =>
    unfold effect
    simp only [hlen, ne_eq, not_false_eq_true, and_self, if_true]
    exact ⟨⟨congrArg (max · (offset + length)) hloop.size, hloop.bytes, hloop.distinct, hloop.count⟩, fun x hx =>
      h.zeros x (Nat.max_le.mp hx).1⟩
  | false => exact ⟨hloop, h.zeros⟩

/-! ## The main result -/

/-- **Every call keeps the array**, changed by what the call reports. -/
theorem Refines.step (h : Refines node file) {a : Step} (ha : Clean node a) :
    Refines (node.step a) (effect file (node.serve a).2.status a) := by
  cases a with
  | read => exact h
  | write => exact h.write ha
  | truncate size => exact h.truncate size
  | fallocate offset length => exact h.fallocate offset length

/-- **A tmpfs file is the array its calls report**: it has the array's size; reading returns the array clipped to
    it, as far as the copies come; and the pages are distinct and counted. -/
theorem tmpfs_file_refines (l : List Step) (h : Along step Clean new l) :
    (run l).size = (reported l).size ∧
    (∀ position count fault, Returns (reported l) position (min count ((reported l).size - position)) fault
      (tmpfsRead (.run l) position count fault)) ∧
    (run l).pageCount = (run l).pages.length ∧ Distinct (run l).pages := by
  have hnew : Refines new noBytes := ⟨⟨rfl, fun _ => rfl, nodup_nil, rfl⟩, fun _ _ => rfl⟩
  have hrun : Refines (run l) (reported l) :=
    h.invariant (I := fun file node => Refines node file) (fun _ _ _ hs ha => hs.step ha) hnew
  exact ⟨hrun.size, hrun.read, hrun.count, hrun.distinct⟩

/-- Pieces that all come through. -/
def allPieces : Nat → Piece := fun _ => ⟨true, none⟩

/-- A write over the end of a page, a shorter file and a longer one. -/
def writeTruncate : List Step :=
  [.write 4090 10 (fun i => UInt8.ofNat i) allPieces, .truncate 4093, .truncate 5000]

theorem writeTruncate_refines :
    (run writeTruncate).size = (reported writeTruncate).size ∧
    Returns (reported writeTruncate) 4092 (min 2 ((reported writeTruncate).size - 4092)) (fun _ => false)
      (tmpfsRead (run writeTruncate) 4092 2 fun _ => false) := by
  have hclean : Along step Clean new writeTruncate :=
    ⟨⟨nofun, .inr (.inr ⟨by decide, rfl, rfl⟩)⟩, trivial, trivial, trivial⟩
  obtain ⟨hsize, hread, -⟩ := tmpfs_file_refines writeTruncate hclean
  exact ⟨hsize, hread 4092 2 fun _ => false⟩

/-- A write of ten bytes whose buffer ends after three returns an error; after a `truncate` that makes the file
    longer the three bytes are in it, though no write has reported them. And a write of no bytes behind the end
    makes the file longer. -/
theorem failedWrite_leaves_bytes :
    let l : List Step := [.write 0 10 (fun _ => 65) fun _ => ⟨true, some 3⟩, .truncate 10]
    (tmpfsWrite new 0 10 (fun _ => 65) fun _ => ⟨true, some 3⟩).2.status = VfsError.io.code ∧
    (tmpfsRead (.run l) 0 1 fun _ => false) = ⟨1, [65]⟩ ∧ (reported l).data 0 = 0 ∧
    (run [.write 5 0 (fun _ => 0) allPieces]).size = 5 ∧
    (reported [.write 5 0 (fun _ => 0) allPieces]).size = 0 := by
  decide +kernel

end Caffeinix.Tmpfs
