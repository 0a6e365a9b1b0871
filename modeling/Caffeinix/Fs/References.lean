import Caffeinix.Fs.OpenFile
import Caffeinix.Lib.Weights
import Mathlib.Algebra.BigOperators.Fin

/-!
# `Fs.References` — the counts of a file and its holders

The holders of references are the descriptor tables, the address spaces, the page cache, and the threads with
what they have in hand. `Counted` says that the count of a file is what they hold together; `Gains`, `Exchanges`
describe what a step does to them, and for each kind of step there is one lemma.
-/

namespace Caffeinix.Fs

open List Sched Files
open Function (update update_of_ne update_self)

variable {Tid Pid Pipe Other Private : Type}

/-- Who can have references. -/
inductive Holder (Tid Pid : Type)
  | table (p : Pid)
  | space (p : Pid)
  | cache
  | hand (t : Tid)

/-- What they have. -/
def Files.references (s : Files Tid Pid Pipe Other Private) : Holder Tid Pid → List Reference
  | .table p => tableReferences (s.slots p)
  | .space p => s.areas p
  | .cache => s.cache
  | .hand t => s.inHand t

def Files.holding (s : Files Tid Pid Pipe Other Private) (q : Reference → Bool) (h : Holder Tid Pid) : Nat :=
  (s.references h).countP q

/-- References to a file. -/
def toFile (f : FileId) (reference : Reference) : Bool := reference.file = f

/-- Those with access to the inode. -/
def toAccess (f : FileId) (reference : Reference) : Bool := reference.file = f && reference.access

/-! ## Counts -/

/-- The counts of the files are right. -/
structure Counted (s : Files Tid Pid Pipe Other Private) : Prop where
  ref : ∀ f, Weighs (s.holding (toFile f)) (s.file f).ref
  access : ∀ f, (s.file f).inodeAccess → Weighs (s.holding (toAccess f)) (s.file f).accessRef
  accessed : ∀ f, (s.file f).inodeAccess = true ↔ (s.file f).accessRef ≠ 0
  free : ∀ f, (s.file f).ref = 0 → s.file f = VfsFile.free

/-- One for a reference that is meant. -/
def weight (q : Reference → Bool) (reference : Reference) : Nat := if q reference then 1 else 0

/-- A holder has one more reference, and the others have what they had. -/
structure Gains (s s' : Files Tid Pid Pipe Other Private) (h : Holder Tid Pid) (reference : Reference) : Prop where
  here : ∀ q, s'.holding q h = s.holding q h + weight q reference
  others : ∀ h', h' ≠ h → ∀ q, s'.holding q h' = s.holding q h'

/-- Two holders have together what they had. -/
structure Exchanges (s s' : Files Tid Pid Pipe Other Private) (h h' : Holder Tid Pid) : Prop where
  ne : h ≠ h'
  here : ∀ q, s'.holding q h + s'.holding q h' = s.holding q h + s.holding q h'
  others : ∀ k, k ≠ h → k ≠ h' → ∀ q, s'.holding q k = s.holding q k

section
variable {s s' : Files Tid Pid Pipe Other Private} {h h' : Holder Tid Pid} {reference : Reference}
  {q : Reference → Bool} {n : Nat}

theorem Gains.weighs (hg : Gains s s' h reference) (hw : Weighs (s.holding q) n) :
    Weighs (s'.holding q) (n + weight q reference) := by
  refine hw.change (fun k hk => hg.others k hk q) ?_
  have hhere := hg.here q
  omega

/-- The same, where the reference is taken away. -/
theorem Gains.weighs_back (hg : Gains s' s h reference) (hw : Weighs (s.holding q) n) :
    weight q reference ≤ n ∧ Weighs (s'.holding q) (n - weight q reference) := by
  have hhere := hg.here q
  have hle := hw.le h
  refine ⟨by omega, hw.change (fun k hk => (hg.others k hk q).symm) ?_⟩
  omega

theorem Exchanges.weighs (he : Exchanges s s' h h') (hw : Weighs (s.holding q) n) : Weighs (s'.holding q) n := by
  refine hw.change_two he.ne (fun k hk hk' => he.others k hk hk' q) ?_
  have hhere := he.here q
  omega

variable {f : FileId} {file : VfsFile Pipe}

theorem weight_ne (hf : reference.file ≠ f) (hq : q = toFile f ∨ q = toAccess f) :
    weight q reference = 0 := by
  rcases hq with rfl | rfl
  · simp [weight, toFile, hf]
  · simp [weight, toAccess, hf]

/-- A file without references has none with access. -/
theorem weighs_toAccess_zero (hw : Weighs (s.holding (toFile f)) 0) : Weighs (s.holding (toAccess f)) 0 := by
  refine weighs_none fun k => Nat.le_zero.1 ?_
  rw [← hw.zero k]
  exact countP_mono_left fun r _ hr => by simp_all [toAccess, toFile]

section
variable (hC : Counted s)
include hC

/-- A file with a holder has a positive count. -/
theorem Counted.pos (hmem : reference ∈ s.references h) : 0 < (s.file reference.file).ref := by
  have hle := (hC.ref reference.file).le h
  have hcount : 0 < s.holding (toFile reference.file) h :=
    countP_pos_iff.2 ⟨reference, hmem, by simp [toFile]⟩
  omega

/-- The files are as they were, and the references are counted as they were. -/
theorem Counted.of_weighs (hw : ∀ {q n}, Weighs (s.holding q) n → Weighs (s'.holding q) n)
    (hf : s'.file = s.file) : Counted s' := by
  constructor <;> rw [hf]
  · exact fun f => hw (hC.ref f)
  · exact fun f ha => hw (hC.access f ha)
  · exact hC.accessed
  · exact hC.free

theorem Counted.same (hh : ∀ k q, s'.holding q k = s.holding q k) (hf : s'.file = s.file) :
    Counted s' := hC.of_weighs (fun hw => hw.congr fun k => hh k _) hf

theorem Counted.exchange (he : Exchanges s s' h h') (hf : s'.file = s.file) : Counted s' :=
  hC.of_weighs he.weighs hf

/-- One file is written to, and the references to the others are counted as they were. -/
theorem Counted.write (hf : s'.file = update s.file f file)
    (hw : ∀ g, g ≠ f → ∀ {q n}, q = toFile g ∨ q = toAccess g → Weighs (s.holding q) n → Weighs (s'.holding q) n)
    (href : Weighs (s'.holding (toFile f)) file.ref)
    (haccess : file.inodeAccess → Weighs (s'.holding (toAccess f)) file.accessRef)
    (haccessed : file.inodeAccess = true ↔ file.accessRef ≠ 0) (hfree : file.ref = 0 → file = VfsFile.free) :
    Counted s' := by
  constructor <;> rw [hf] <;> intro g <;> by_cases hg : g = f
  all_goals first | (subst hg; rw [update_self]; assumption) | rw [update_of_ne hg]
  · exact hw g hg (.inl rfl) (hC.ref g)
  · exact fun ha => hw g hg (.inr rfl) (hC.access g ha)
  · exact hC.accessed g
  · exact hC.free g

/-- A file gets one more holder, or a first one. -/
theorem Counted.gain (hg' : Gains s s' h reference) (hf : s'.file = update s.file reference.file file)
    (href : file.ref = (s.file reference.file).ref + 1)
    (haccess : file.inodeAccess → Weighs (s'.holding (toAccess reference.file)) file.accessRef)
    (haccessed : file.inodeAccess = true ↔ file.accessRef ≠ 0) : Counted s' := by
  refine hC.write hf (fun g hg q n hq hw => ?_) ?_ haccess haccessed fun hzero => by omega
  · have hw := hg'.weighs hw
    rwa [weight_ne (fun h => hg h.symm) hq] at hw
  · have hw := hg'.weighs (hC.ref reference.file)
    rw [href]
    simpa [weight, toFile] using hw

end

end

/-! ## `file.c` -/

section
variable {s s' : Files Tid Pid Pipe Other Private} {h : Holder Tid Pid}

/-- A file as `file_dup` leaves it. -/
def VfsFile.dupped (file : VfsFile Pipe) : VfsFile Pipe :=
  { file with
    ref := file.ref + 1
    accessRef := if file.inodeAccess then file.accessRef + 1 else file.accessRef }

variable {f : FileId}

theorem fileDup_eq (hpos : 0 < (s.file f).ref) : fileDup s f = s.setFile f (s.file f).dupped := by
  unfold fileDup
  rw [if_neg (by omega)]
  rfl

theorem fileHold_eq (hpos : 0 < (s.file f).ref) :
    fileHold s f = s.setFile f { s.file f with ref := (s.file f).ref + 1 } := by
  unfold fileHold
  rw [if_neg (by omega)]

/-- `file_dup`, and the new reference is somewhere. -/
theorem Counted.dup (hC : Counted s) (hg : Gains s s' h ⟨f, true⟩)
    (hf : s'.file = update s.file f (s.file f).dupped) : Counted s' := by
  refine hC.gain hg hf rfl (fun ha => ?_) ?_
  · have ha' : (s.file f).inodeAccess = true := ha
    have hw := hg.weighs (hC.access f ha')
    simpa [VfsFile.dupped, ha', weight, toAccess] using hw
  · have hiff := hC.accessed f
    simp only [VfsFile.dupped]
    by_cases ha : (s.file f).inodeAccess = true
    · simp [ha]
    · simp only [ha, if_false, Bool.false_eq_true, false_iff] at hiff ⊢
      exact hiff

/-- `file_hold`. -/
theorem Counted.hold (hC : Counted s) (hg : Gains s s' h ⟨f, false⟩)
    (hf : s'.file = update s.file f { s.file f with ref := (s.file f).ref + 1 }) : Counted s' := by
  refine hC.gain hg hf rfl (fun ha => ?_) (hC.accessed f)
  have hw := hg.weighs (hC.access f ha)
  simpa [weight, toAccess] using hw

/-- A new file. -/
theorem Counted.alloc (hC : Counted s) (hfree : (s.file f).ref = 0) (hg : Gains s s' h ⟨f, true⟩)
    {file : VfsFile Pipe} (href : file.ref = 1)
    (haccess : file.accessRef = if file.inodeAccess then 1 else 0) (hf : s'.file = update s.file f file) :
    Counted s' := by
  refine hC.gain hg hf (by rw [href, hfree]) (fun ha => ?_) ?_
  · -- nobody had a reference of either kind
    have hzero := hC.ref f
    rw [hfree] at hzero
    have hw := hg.weighs (weighs_toAccess_zero hzero)
    simpa [haccess, ha, weight, toAccess] using hw
  · rw [haccess]
    by_cases ha : file.inodeAccess = true <;> simp [ha]

theorem releaseAccess_frame (file : VfsFile Pipe) (access : Bool) :
    let r := releaseAccess file access
    r.ref = file.ref ∧ r.pipe = file.pipe ∧ r.openRead = file.openRead ∧ r.openWrite = file.openWrite := by
  unfold releaseAccess
  by_cases h : (access && file.inodeAccess) = true
  · simp [h]
  · simp [h]

section
variable {reference : Reference}

/-- The access that is left when a holder has given a reference back. -/
theorem Counted.releaseAccess (hC : Counted s) (hg : Gains s' s h reference) :
    let file := Fs.releaseAccess (s.file reference.file) reference.access
    ¬(reference.access ∧ (s.file reference.file).inodeAccess ∧ (s.file reference.file).accessRef = 0) ∧
      (file.inodeAccess → Weighs (s'.holding (toAccess reference.file)) file.accessRef) ∧
      (file.inodeAccess = true ↔ file.accessRef ≠ 0) := by
  intro file
  have haccessed := hC.accessed reference.file
  by_cases hi : (s.file reference.file).inodeAccess = true
  · obtain ⟨hle, hback⟩ := hg.weighs_back (hC.access reference.file hi)
    cases ha : reference.access with
    | true =>
      have hw : weight (toAccess reference.file) reference = 1 := by simp [weight, toAccess, ha]
      rw [hw] at hle hback
      refine ⟨fun h => ?_, ?_⟩
      · have hzero := h.2.2
        omega
      · simp only [file, Fs.releaseAccess, ha, hi, Bool.and_self, if_true]
        by_cases hzero : (s.file reference.file).accessRef - 1 = 0
        · simp [hzero]
        · simp [hzero, hback]
    | false =>
      have hw : weight (toAccess reference.file) reference = 0 := by simp [weight, toAccess, ha]
      rw [hw] at hback
      have heq : file = s.file reference.file := by simp [file, Fs.releaseAccess, ha]
      rw [heq]
      exact ⟨fun h => Bool.noConfusion h.1, fun _ => hback, haccessed⟩
  · have heq : file = s.file reference.file := by simp [file, Fs.releaseAccess, hi]
    rw [heq]
    exact ⟨fun h => hi h.2.1, fun h => absurd h hi, haccessed⟩

variable [DecidableEq Tid]

variable (hC : Counted s) (hg : Gains s' s h reference) (hf : s'.file = s.file) (t : Tid)
include hC hg hf t

/-- `file_release` of a reference that a holder has given back: no check fails. -/
theorem Counted.fileRelease_eq : let file := Fs.releaseAccess (s.file reference.file) reference.access
    fileRelease s' t reference =
      if file.ref - 1 ≠ 0 then s'.setFile reference.file { file with ref := file.ref - 1 }
      else
        { s'.setFile reference.file VfsFile.free with
          released := update s'.released t (some { file with ref := 0 }) } := by
  intro file
  obtain ⟨hone, hleft⟩ := hg.weighs_back (hC.ref reference.file)
  have hweight : weight (toFile reference.file) reference = 1 := by simp [weight, toFile]
  rw [hweight] at hone hleft
  obtain ⟨hcheck, haccess, haccessed⟩ := hC.releaseAccess hg
  have href : file.ref = (s.file reference.file).ref := (releaseAccess_frame _ _).1
  unfold fileRelease
  simp only [hf]
  rw [if_neg (by omega), if_neg (by simpa [and_assoc] using hcheck)]
  change (if file.ref - 1 ≠ 0 then _ else _) = _
  by_cases hmore : file.ref - 1 ≠ 0
  · rw [if_pos hmore, if_pos hmore]
  rw [if_neg hmore, if_neg hmore, if_neg]
  -- the last reference takes the access with it
  have hzero : file.accessRef = 0 := by
    by_contra hne
    rw [href] at hmore
    rw [not_not.1 hmore] at hleft
    exact hne ((haccess (haccessed.2 hne)).unique (weighs_toAccess_zero hleft))
  have hno : file.inodeAccess = false := by
    by_contra hne
    exact haccessed.1 (by simpa using hne) hzero
  change ¬(decide (file.accessRef ≠ 0) || file.inodeAccess) = true
  simp [hzero, hno]

theorem Counted.fileRelease : Counted (fileRelease s' t reference) := by
  obtain ⟨hone, hleft⟩ := hg.weighs_back (hC.ref reference.file)
  have hweight : weight (toFile reference.file) reference = 1 := by simp [weight, toFile]
  rw [hweight] at hone hleft
  obtain ⟨-, haccess, haccessed⟩ := hC.releaseAccess hg
  have href := (releaseAccess_frame (s.file reference.file) reference.access).1
  -- the counts of the other files
  have hothers : ∀ g, g ≠ reference.file → ∀ {q n}, q = toFile g ∨ q = toAccess g →
      Weighs (s.holding q) n → Weighs (s'.holding q) n := by
    intro g hne q n hq hw
    have hback := (hg.weighs_back hw).2
    rwa [weight_ne (fun h => hne h.symm) hq] at hback
  rw [hC.fileRelease_eq hg hf t]
  split_ifs with hmore
  · exact hC.write (congrArg (update · _ _) hf) hothers (by rw [href]; exact hleft) haccess haccessed
      fun h => absurd h hmore
  have hfile : (s'.setFile reference.file VfsFile.free).file = update s.file reference.file VfsFile.free := by
    rw [← hf]
    rfl
  refine hC.write hfile hothers ?_ nofun (by simp [VfsFile.free]) fun _ => rfl
  rw [href] at hmore
  rwa [not_not.1 hmore] at hleft

end
end

/-! ## Holders -/

section
variable {s s' s'' : Files Tid Pid Pipe Other Private} {h h' : Holder Tid Pid} {reference : Reference}

/-- What somebody had is where another one has it now. -/
theorem Gains.exchange (hg : Gains s s' h reference) (hg' : Gains s s'' h' reference) (hne : h ≠ h') :
    Exchanges s' s'' h h' where
  ne := hne
  here := by
    intro q
    have h1 := hg.here q
    have h2 := hg'.here q
    have h3 := hg.others h' hne.symm q
    have h4 := hg'.others h hne q
    omega
  others := fun k hk hk' q => (hg'.others k hk' q).trans (hg.others k hk q).symm

/-- The files have nothing to do with the holders. -/
theorem Gains.of_setFile {f : FileId} {file : VfsFile Pipe} (hg : Gains (s.setFile f file) s' h reference) :
    Gains s s' h reference := ⟨hg.here, hg.others⟩

theorem countP_cons_weight (q : Reference → Bool) {l : List Reference} :
    (reference :: l).countP q = l.countP q + weight q reference := by
  rw [countP_cons]
  rfl

theorem countP_erase_weight {l : List Reference} (hm : reference ∈ l) (q : Reference → Bool) :
    l.countP q = (l.erase reference).countP q + weight q reference := by
  rw [(perm_cons_erase hm).countP_eq, countP_cons_weight]

/-- What the holders have that a step does not touch. -/
theorem holding_eq (P : Holder Tid Pid → Prop) (hslots : ∀ p, P (.table p) → s'.slots p = s.slots p)
    (hareas : ∀ p, P (.space p) → s'.areas p = s.areas p) (hcache : P .cache → s'.cache = s.cache)
    (hhand : ∀ t, P (.hand t) → s'.inHand t = s.inHand t) {k : Holder Tid Pid} (hk : P k) (q : Reference → Bool) :
    s'.holding q k = s.holding q k := by
  cases k with
  | table p => simp only [holding, references, hslots p hk]
  | space p => simp only [holding, references, hareas p hk]
  | cache => simp only [holding, references, hcache hk]
  | hand t => simp only [holding, references, hhand t hk]

theorem gains_of (hhere : ∀ q, (s'.references h).countP q = (s.references h).countP q + weight q reference)
    (hslots : ∀ p, .table p ≠ h → s'.slots p = s.slots p) (hareas : ∀ p, .space p ≠ h → s'.areas p = s.areas p)
    (hcache : .cache ≠ h → s'.cache = s.cache) (hhand : ∀ t, .hand t ≠ h → s'.inHand t = s.inHand t) :
    Gains s s' h reference :=
  ⟨hhere, fun _ => holding_eq (· ≠ h) hslots hareas hcache hhand⟩

variable {t : Tid}

/-- A process or the cache, and a thread. -/
theorem exchanges_of (hne : h ≠ .hand t)
    (hhere : ∀ q, s'.holding q h + s'.holding q (.hand t) = s.holding q h + s.holding q (.hand t))
    (hslots : ∀ p, .table p ≠ h → s'.slots p = s.slots p)
    (hareas : ∀ p, .space p ≠ h → s'.areas p = s.areas p) (hcache : .cache ≠ h → s'.cache = s.cache)
    (hhand : ∀ u, u ≠ t → s'.inHand u = s.inHand u) : Exchanges s s' h (.hand t) :=
  ⟨hne, hhere, fun _ hk hk' => holding_eq (fun k => k ≠ h ∧ k ≠ .hand t) (fun p hp => hslots p hp.1)
    (fun p hp => hareas p hp.1) (fun h => hcache h.1) (fun u hu => hhand u fun he => hu.2 (by rw [he])) ⟨hk, hk'⟩⟩

/-- The list of one thread changes. -/
theorem gains_hand (hhere : ∀ q, (s'.inHand t).countP q = (s.inHand t).countP q + weight q reference)
    (hothers : ∀ u, u ≠ t → s'.inHand u = s.inHand u) (hslots : s'.slots = s.slots)
    (hareas : s'.areas = s.areas) (hcache : s'.cache = s.cache) : Gains s s' (.hand t) reference :=
  gains_of hhere (fun _ _ => by rw [hslots]) (fun _ _ => by rw [hareas]) (fun _ => hcache)
    fun u hu => hothers u fun he => hu (by rw [he])

/-! ## Tables -/

/-- What a slot of a table weighs. -/
def slotWeight (q : Reference → Bool) : Option FileId → Nat
  | none => 0
  | some f => weight q ⟨f, true⟩

variable (slots : Fd → Option FileId)

theorem countP_tableReferences (q : Reference → Bool) :
    (tableReferences slots).countP q = ∑ fd, slotWeight q (slots fd) := by
  have hlist : ∀ l : List Fd, (l.filterMap fun fd => (slots fd).map fun f => (⟨f, true⟩ : Reference)).countP q =
      (l.map fun fd => slotWeight q (slots fd)).sum := by
    intro l
    induction l with
    | nil => rfl
    | cons fd l ih =>
      cases hfd : slots fd with
      | none => simp [hfd, ih, slotWeight]
      | some =>
        simp only [filterMap_cons, hfd, Option.map_some, countP_cons_weight, ih, map_cons,
          sum_cons, slotWeight]
        omega
  rw [tableReferences, hlist, ← ofFn_eq_map, sum_ofFn]

theorem countP_tableReferences_update (fd : Fd) (new : Option FileId) (q : Reference → Bool) :
    (tableReferences (update slots fd new)).countP q + slotWeight q (slots fd) =
      (tableReferences slots).countP q + slotWeight q new := by
  rw [countP_tableReferences, countP_tableReferences, ← Finset.add_sum_erase _ _ (Finset.mem_univ fd),
    ← Finset.add_sum_erase (Finset.univ : Finset Fd) (fun fd => slotWeight q (slots fd)) (Finset.mem_univ fd)]
  have hrest : ∑ i ∈ Finset.univ.erase fd, slotWeight q (update slots fd new i) =
      ∑ i ∈ Finset.univ.erase fd, slotWeight q (slots i) :=
    Finset.sum_congr rfl fun i hi => by rw [update_of_ne (Finset.ne_of_mem_erase hi)]
  rw [hrest, update_self]
  omega

/-- The table of one process changes. -/
theorem gains_table {p : Pid}
    (hhere : ∀ q, (tableReferences (s'.slots p)).countP q = (tableReferences (s.slots p)).countP q + weight q reference)
    (hothers : ∀ p', p' ≠ p → s'.slots p' = s.slots p') (hareas : s'.areas = s.areas) (hcache : s'.cache = s.cache)
    (hhand : ∀ t, s'.inHand t = s.inHand t) : Gains s s' (.table p) reference :=
  gains_of hhere (fun p' hp => hothers p' fun he => hp (by rw [he])) (fun _ _ => by rw [hareas]) (fun _ => hcache)
    fun t _ => hhand t

section
variable [DecidableEq Tid]

theorem keep_gains :
    Gains s (s.keep t reference) (.hand t) reference := by
  refine gains_hand (fun q => ?_) (fun u hu => ?_) rfl rfl rfl
  · simp only [Files.inHand, keep, update_self, countP_append, countP_cons_weight]
    omega
  · simp only [Files.inHand, keep, update_of_ne hu]

theorem drop_gains {t : Tid} (hm : reference ∈ s.locals t) : Gains (s.drop t reference) s (.hand t) reference := by
  refine gains_hand (fun q => ?_) (fun u hu => ?_) rfl rfl rfl
  · simp only [Files.inHand, Files.drop, update_self, countP_append, countP_erase_weight hm q]
    omega
  · simp only [Files.inHand, Files.drop, update_of_ne hu]

end

section
variable [DecidableEq Pid]

variable {fd : Fd} {p : Pid}

theorem setSlot_gains (hnone : s.slots p fd = none) {f : FileId} {flag : Bool} :
    Gains s (s.setSlot p fd (some f) flag) (.table p) ⟨f, true⟩ := by
  refine gains_table (fun q => ?_) (fun p' hp => ?_) rfl rfl fun _ => rfl
  · have hupdate := countP_tableReferences_update (s.slots p) fd (some f) q
    rw [hnone] at hupdate
    simpa [setSlot, slotWeight] using hupdate
  · simp only [setSlot, update_of_ne hp]

theorem clearSlot_gains {f : FileId} (hsome : s.slots p fd = some f) {flag : Bool} :
    Gains (s.setSlot p fd none flag) s (.table p) ⟨f, true⟩ := by
  refine gains_table (fun q => ?_) (fun p' hp => ?_) rfl rfl fun _ => rfl
  · have hupdate := countP_tableReferences_update (s.slots p) fd none q
    rw [hsome] at hupdate
    simpa [setSlot, slotWeight] using hupdate.symm
  · simp only [setSlot, update_of_ne hp]

end
end
end Caffeinix.Fs
