import Caffeinix.Lib.Runs
import Caffeinix.Tmpfs.TreeRename

/-!
# `Tmpfs.TreeRun` — the names of tmpfs over whole runs

`Kept` relates the inodes to the references that the VFS holds: an inode is there as long as it has links or
references. With `TreeInv` it holds in every run that adds no entry to a directory which has been removed.
Nothing in `tmpfs.c` refuses that, and nothing in `vfs.c`: see `removedDirectory_gains_entry`.
-/

namespace Caffeinix.Tmpfs

open Nat Option Chains Runs Tmpfs.Tree
open Function (update update_apply update_eq_self update_idem update_of_ne update_self)

/-- The references the VFS has got from the calls so far. -/
def account (t : Tree) (held : Ino → Nat) (c : Call) : Ino → Nat :=
  match c, (t.serve c).2 with
  | .put i, .ok _ => update held i (held i - 1)
  | _, .ok (some i) => update held i (held i + 1)
  | _, _ => held

/-- An entry is only added to a directory that has links. -/
def Adds (t : Tree) : Call → Prop
  | .create d .. | .mkdir d .. | .symlink d .. | .mknod d .. | .link _ d .. => t.nlink d ≠ 0
  | .rename _ _ nd .. => t.nlink nd ≠ 0
  | _ => True

/-- The references are those of the VFS, and an inode is there as long as it has links or references. -/
structure Kept (held : Ino → Nat) (t : Tree) : Prop where
  refs : ∀ i, t.live i = true → t.references i = held i
  gone : ∀ i, t.live i = false → held i = 0
  kept : ∀ i, t.live i = true → t.nlink i ≠ 0 ∨ t.references i ≠ 0

variable {t t' : Tree} {held : Ino → Nat} {d i : Ino} {e : Entry} {name : Name}

/-! ## Calls that fail -/

/-- Two trees with the same inodes. -/
theorem inode_eq (hlive : ∀ j, t'.live j = t.live j) (hsame : ∀ j, t.live j = true → t'.type j = t.type j ∧
    t'.nlink j = t.nlink j ∧ t'.references j = t.references j ∧ t'.parent j = t.parent j ∧
    t'.entries j = t.entries j) : t'.inode = t.inode := by
  funext j
  unfold inode
  rw [hlive j]
  by_cases hj : t.live j = true
  · obtain ⟨h₁, h₂, h₃, h₄, h₅⟩ := hsame j hj
    rw [if_pos hj, if_pos hj, h₁, h₂, h₃, h₄, h₅]
  · rw [if_neg hj, if_neg hj]

theorem Kept.congr (h : Kept held t) (hinode : t'.inode = t.inode) : Kept held t' := by
  have hview : ∀ j, t'.live j = t.live j ∧ (t.live j = true → t'.references j = t.references j ∧
      t'.nlink j = t.nlink j) := by
    intro j
    have hj := congrFun hinode j
    unfold inode at hj
    split_ifs at hj with h₁ h₂ h₂
    · exact ⟨by rw [h₁, h₂], fun _ => by injection hj with hj; injection hj with _ hn hr; exact ⟨hr, hn⟩⟩
    · exact ⟨by rw [Bool.eq_false_iff.mpr h₁, Bool.eq_false_iff.mpr h₂], fun h => absurd h h₂⟩
  refine ⟨fun j hj => ?_, fun j hj => ?_, fun j hj => ?_⟩
  · rw [(hview j).1] at hj
    rw [((hview j).2 hj).1]
    exact h.refs j hj
  · rw [(hview j).1] at hj
    exact h.gone j hj
  · rw [(hview j).1] at hj
    rw [((hview j).2 hj).1, ((hview j).2 hj).2]
    exact h.kept j hj

/-- A new inode that is destroyed at once. -/
theorem alloc_destroy_inode (h : TreeInv t) (type : InodeType) (parent : Ino) :
    ({ (t.inodeAlloc type).inodeDestroy t.nextInode with
      parent := update (t.inodeAlloc type).parent t.nextInode parent } : Tree).inode = t.inode := by
  have hfresh := h.fresh
  refine inode_eq (fun j => ?_) (fun j hj => ?_)
  · show update (update t.live t.nextInode true) t.nextInode false j = t.live j
    rw [update_idem, ← hfresh, update_eq_self]
  · have hne : j ≠ t.nextInode := fun hjn => by
      rw [hjn, hfresh] at hj
      cases hj
    refine ⟨update_of_ne hne _ _, update_of_ne hne _ _, update_of_ne hne _ _, ?_,
      update_of_ne hne _ _⟩
    show update (update t.parent t.nextInode 0) t.nextInode parent j = t.parent j
    rw [update_idem, update_of_ne hne]

/-- The parent of an inode that is not there does not matter. -/
theorem TreeInv.parentDead (h : TreeInv t) (hdead : t.live i = false) :
    TreeInv { t with parent := update t.parent i d } := by
  have hne : ∀ j, t.live j = true → j ≠ i := fun j hj hji => by
    rw [hji, hdead] at hj
    cases hj
  have hparent : ∀ j, t.live j = true → update t.parent i d j = t.parent j := fun j hj =>
    update_of_ne (hne j hj) _ _
  refine ⟨⟨h.bound, h.dead, h.plain, h.names, h.target⟩, fun c x hx hxtype => ?_, h.single, fun j hj => ?_, h.dirs,
    h.removed, h.files, ?_, fun j hj hjtype hjlink => ?_⟩
  · show update t.parent i d x.inode = c ∧ _
    rw [hparent _ (h.target c x hx)]
    exact h.child c x hx hxtype
  · show _ → _ → _ → ∃ x ∈ t.entries (update t.parent i d j), x.inode = j
    rw [hparent j hj]
    exact h.placed j hj
  · show _ ∧ _ ∧ _ ∧ update t.parent i d t.root = t.root
    rw [hparent _ h.root.1]
    exact h.root
  · exact h.reaches_of_linked (fun b hb => hparent b hb.1) ⟨hj, hjtype, hjlink⟩

/-- A new inode that is destroyed at once leaves the tree. -/
theorem TreeInv.allocDestroy (h : TreeInv t) (type : InodeType) (parent : Ino) :
    TreeInv { (t.inodeAlloc type).inodeDestroy t.nextInode with
      parent := update (t.inodeAlloc type).parent t.nextInode parent } :=
  ((h.alloc type).destroy (update_self _ _ _) (update_self _ _ _)).parentDead
    (update_self _ _ _)

/-- An entry that was added at the head is taken back. -/
theorem takeBack_added (t : Tree) (d i : Ino) (name : Name) :
    update (update t.entries d (⟨name, i⟩ :: t.entries d)) d
      (((update t.entries d (⟨name, i⟩ :: t.entries d) d).dropWhile fun e => e.name ≠ name).tail) =
        t.entries := by
  rw [update_idem, update_self, List.dropWhile_cons]
  simp

/-! ## References -/

/-- Links change, but an inode that the VFS does not hold keeps one. -/
theorem Kept.relink (h : Kept held t) (hlive : t'.live = t.live) (hrefs : t'.references = t.references)
    (hlink : ∀ j, t.references j = 0 → t.nlink j ≠ 0 → t'.nlink j ≠ 0) : Kept held t' := by
  refine ⟨fun j hj => ?_, fun j hj => ?_, fun j hj => ?_⟩
  · rw [hlive] at hj
    rw [hrefs]
    exact h.refs j hj
  · rw [hlive] at hj
    exact h.gone j hj
  · rw [hlive] at hj
    rw [hrefs]
    by_cases hzero : t.references j = 0
    · exact .inl (hlink j hzero ((h.kept j hj).resolve_right (not_not.mpr hzero)))
    · exact .inr hzero

/-- One inode is destroyed if it has neither links nor references; the others are kept. -/
theorem Kept.maybeDestroy (hrefs : ∀ j, t.live j = true → t.references j = held j)
    (hgone : ∀ j, t.live j = false → held j = 0)
    (hkept : ∀ j, t.live j = true → j ≠ i → t.nlink j ≠ 0 ∨ t.references j ≠ 0) (hi : t.live i = true) :
    Kept held (t.inodeMaybeDestroy i) := by
  unfold inodeMaybeDestroy
  split_ifs with hzero
  · have hother : ∀ j, (t.inodeDestroy i).live j = true → t.live j = true ∧ j ≠ i := by
      intro j hj
      have hj : update t.live i false j = true := hj
      rw [update_apply] at hj
      split_ifs at hj with hji
      exact ⟨hj, hji⟩
    refine ⟨fun j hj => hrefs j (hother j hj).1, fun j hj => ?_, fun j hj => hkept j (hother j hj).1 (hother j hj).2⟩
    by_cases hji : j = i
    · rw [hji, ← hrefs i hi]
      exact hzero.2
    · have hj : update t.live i false j = false := hj
      rw [update_of_ne hji] at hj
      exact hgone j hj
  · refine ⟨hrefs, hgone, fun j hj => ?_⟩
    by_cases hji : j = i
    · rw [hji]
      by_contra hnone
      rw [not_or, not_not, not_not] at hnone
      exact hzero hnone
    · exact hkept j hj hji

theorem Kept.removeEntry (h : Kept held t) (hd : t.references d ≠ 0) (hi : t.live e.inode = true) :
    Kept held (t.removeEntry d e) := by
  obtain ⟨-, -, -, -, hrefs, hlive⟩ := unlinked_frame
  rw [removeEntry_eq]
  refine .maybeDestroy (fun j hj => ?_) (fun j hj => ?_) (fun j hj hji => ?_) (by rw [hlive]; exact hi)
  · rw [hlive] at hj
    rw [hrefs]
    exact h.refs j hj
  · rw [hlive] at hj
    exact h.gone j hj
  · rw [hlive] at hj
    rw [hrefs]
    by_cases hjd : j = d
    · rw [hjd]
      exact .inr hd
    · rw [unlinked_nlink t d e hji, if_neg fun hjd' => hjd hjd'.2, Nat.sub_zero]
      exact h.kept j hj

/-- The references of one inode change. -/
theorem Kept.recount (h : Kept held t) (hi : t.live i = true) (f : Nat → Nat) :
    (∀ j, t.live j = true → update t.references i (f (t.references i)) j = update held i (f (held i)) j) ∧
      ∀ j, t.live j = false → update held i (f (held i)) j = 0 := by
  refine ⟨fun j hj => ?_, fun j hj => ?_⟩
  · by_cases hji : j = i
    · rw [hji, update_self, update_self, h.refs i hi]
    · rw [update_of_ne hji, update_of_ne hji]
      exact h.refs j hj
  · have hji : j ≠ i := fun hji => by
      rw [hji, hi] at hj
      cases hj
    rw [update_of_ne hji]
    exact h.gone j hj

/-- The VFS gets a reference. -/
theorem Kept.hold (h : Kept held t) (hi : t.live i = true) : Kept (update held i (held i + 1)) (t.hold i) := by
  obtain ⟨hrefs, hgone⟩ := h.recount hi (· + 1)
  refine ⟨hrefs, hgone, fun j hj => ?_⟩
  show t.nlink j ≠ 0 ∨ update t.references i (t.references i + 1) j ≠ 0
  by_cases hji : j = i
  · rw [hji, update_self]
    exact .inr (succ_ne_zero _)
  · rw [update_of_ne hji]
    exact h.kept j hj

/-! ## What an operation leaves -/

/-- The references after a call other than `put`. -/
def gained (held : Ino → Nat) : Reply → Ino → Nat
  | .ok (some i) => update held i (held i + 1)
  | _ => held

/-- An operation has kept the tree and the references, it has changed no inode if it has failed, and it has
    returned. -/
structure Serves (held : Ino → Nat) (t : Tree) (r : Tree × Reply) : Prop where
  tree : TreeInv r.1
  kept : Kept (gained held r.2) r.1
  error : ∀ e, r.2 = .error e → r.1.inode = t.inode
  returns : r.2 ≠ .stuck ∧ r.2 ≠ .panic

/-- An operation that fails. -/
theorem Serves.failed (h : TreeInv t') (hk : Kept held t) (hinode : t'.inode = t.inode) {err : VfsError} :
    Serves held t (t', .error err) :=
  ⟨h, hk.congr hinode, fun _ _ => hinode, nofun, nofun⟩

theorem Serves.unchanged (h : TreeInv t) (hk : Kept held t) {err : VfsError} : Serves held t (t, .error err) :=
  Serves.failed h hk rfl

theorem Serves.done (h : TreeInv t') (hk : Kept held t') : Serves held t (t', .ok none) :=
  ⟨h, hk, nofun, nofun, nofun⟩

theorem Serves.gave (h : TreeInv t') (hk : Kept (update held i (held i + 1)) t') :
    Serves held t (t', .ok (some i)) :=
  ⟨h, hk, nofun, nofun, nofun⟩

section
variable (h : TreeInv t)
include h

theorem lookup_serves (hk : Kept held t) {memory : Bool} : Serves held t (tmpfsLookup t d name memory) := by
  unfold tmpfsLookup
  cases hf : t.findEntry d name with
  | none => exact .unchanged h hk
  | some e =>
    cases memory with
    | false => exact .unchanged h hk
    | true =>
      have hlive := h.target d e (findEntry_some hf).1
      exact .gave (h.hold e.inode) (hk.hold hlive)

omit h in
/-- A new inode that the VFS holds and that has a link. -/
theorem Kept.created (h : Kept held t) (hfresh : t.live i = false) (hlive : t'.live = update t.live i true)
    (hheld : t'.references = update (update t.references i 0) i (update t.references i 0 i + 1))
    (hlink : ∀ j, j ≠ i → t.nlink j ≠ 0 → t'.nlink j ≠ 0) : Kept (update held i (held i + 1)) t' := by
  have href : t'.references i = 1 := by rw [hheld, update_self, update_self]
  have hrefs : ∀ j, j ≠ i → t'.references j = t.references j := by
    intro j hj
    rw [hheld, update_of_ne hj, update_of_ne hj]
  refine ⟨fun j hj => ?_, fun j hj => ?_, fun j hj => ?_⟩
  · by_cases hji : j = i
    · rw [hji, update_self, h.gone i hfresh, href]
    · rw [hlive, update_of_ne hji] at hj
      rw [update_of_ne hji, hrefs j hji]
      exact h.refs j hj
  · have hji : j ≠ i := fun hji => by
      rw [hlive, hji, update_self] at hj
      cases hj
    rw [hlive, update_of_ne hji] at hj
    rw [update_of_ne hji]
    exact h.gone j hj
  · by_cases hji : j = i
    · rw [hji, href]
      exact .inr one_ne_zero
    · rw [hlive, update_of_ne hji] at hj
      rw [hrefs j hji]
      exact (h.kept j hj).imp_left (hlink j hji)

/-- The directory is not the inode that comes. -/
theorem TreeInv.ne_next (hd : t.live d = true) : d ≠ t.nextInode := fun hdn => by
  rw [hdn, h.fresh] at hd
  cases hd

/-- The directory is as it was when an inode has come. -/
theorem alloc_directory (hd : t.Linked d) (type : InodeType) :
    (t.inodeAlloc type).Linked d ∧ (t.inodeAlloc type).entries d = t.entries d := by
  have hne := h.ne_next hd.1
  show (update t.live _ _ d = true ∧ update t.type _ _ d = _ ∧ update t.nlink _ _ d ≠ 0) ∧ update t.entries _ _ d = _
  rw [update_of_ne hne, update_of_ne hne, update_of_ne hne, update_of_ne hne]
  exact ⟨hd, rfl⟩

omit h in
theorem alloc_self (t : Tree) (type : InodeType) : let a := t.inodeAlloc type
    a.live t.nextInode = true ∧ a.type t.nextInode = type ∧ a.nlink t.nextInode = 0 ∧
      a.references t.nextInode = 0 ∧ a.parent t.nextInode = 0 :=
  ⟨update_self _ _ _, update_self _ _ _, update_self _ _ _, update_self _ _ _, update_self _ _ _⟩

omit h in
/-- A name that is not there gets an entry if there is memory. -/
theorem addEntry_free (hfind : t.findEntry d name = none) (i : Ino) (memory : Bool) :
    t.addEntry d name i memory =
      if memory then .ok (t.setEntries d (⟨name, i⟩ :: t.entries d)) else .error .nomem := by
  unfold addEntry
  rw [hfind]
  cases memory <;> rfl

/-- The name is still not there when an inode has come. -/
theorem alloc_findEntry (hd : t.Linked d) (type : InodeType) :
    (t.inodeAlloc type).findEntry d name = t.findEntry d name := by
  unfold findEntry
  rw [(alloc_directory h hd type).2]

section
variable (hk : Kept held t)
include hk

/-- A new inode that is destroyed at once is a call that fails. -/
theorem allocDestroy_serves {type : InodeType} {err : VfsError} :
    Serves held t ((t.inodeAlloc type).inodeDestroy t.nextInode, .error err) := by
  have hparent : ({ (t.inodeAlloc type).inodeDestroy t.nextInode with
      parent := update (t.inodeAlloc type).parent t.nextInode 0 } : Tree) =
        (t.inodeAlloc type).inodeDestroy t.nextInode := by
    rw [show update (t.inodeAlloc type).parent t.nextInode 0 = (t.inodeAlloc type).parent from by
      show update (update _ _ _) _ _ = update _ _ _
      rw [update_idem]]
    rfl
  have htree := h.allocDestroy type 0
  have hinode := alloc_destroy_inode h type 0
  rw [hparent] at htree hinode
  exact .failed htree hk hinode

theorem makeNode_serves (type : InodeType) (htype : type ≠ .directory) (hd : t.Linked d) {memory : Memory} :
    Serves held t (makeNode t d name type memory) := by
  have hself := alloc_self t type
  have hdir := alloc_directory h hd type
  unfold makeNode
  cases hfind : t.findEntry d name with
  | some => exact .unchanged h hk
  | none =>
    rw [isSome_none, if_neg Bool.false_ne_true]
    rcases memory.inode with _ | _
    · exact .unchanged h hk
    rw [Bool.not_true, if_neg Bool.false_ne_true]
    rcases memory.target with _ | _
    · exact allocDestroy_serves h hk
    have hfind' := (alloc_findEntry h hd type).trans hfind
    rw [Bool.not_true, if_neg Bool.false_ne_true, addEntry_free hfind']
    rcases memory.entry with _ | _
    · exact allocDestroy_serves h hk
    simp only [if_true]
    have hlinked := (h.alloc type).linkFile hself.1
      (by rw [hself.2.1]; exact htype) hdir.1 (findEntry_none hfind')
    rw [hself.2.2.1] at hlinked
    cases memory.wrap with
    | true =>
      rw [if_pos rfl]
      refine .gave (hlinked.hold _) (hk.created h.fresh rfl rfl fun j hj hjlink => ?_)
      show update (update t.nlink t.nextInode 0) t.nextInode 1 j ≠ 0
      rw [update_of_ne hj, update_of_ne hj]
      exact hjlink
    | false =>
      rw [if_neg Bool.false_ne_true]
      -- the entry and the link are taken back: what is left is the inode that has come
      have hback : (((((t.inodeAlloc type).setEntries d
          (⟨name, t.nextInode⟩ :: (t.inodeAlloc type).entries d)).setNlink t.nextInode 1).takeBack d
            name).setNlink t.nextInode 0).inodeDestroy t.nextInode =
              (t.inodeAlloc type).inodeDestroy t.nextInode := by
        have hentries := takeBack_added (t.inodeAlloc type) d t.nextInode name
        have hnlink : update (update (t.inodeAlloc type).nlink t.nextInode 1)
            t.nextInode 0 = (t.inodeAlloc type).nlink := by
          rw [update_idem, ← hself.2.2.1, update_eq_self]
        unfold takeBack setEntries setNlink inodeDestroy
        rw [hentries, hnlink]
      rw [hback]
      exact allocDestroy_serves h hk

theorem mkdir_serves (hd : t.Linked d) (inode entry wrap : Bool) :
    Serves held t (tmpfsMkdir t d name inode entry wrap) := by
  have hself := alloc_self t .directory
  have hdir := alloc_directory h hd .directory
  have hne := h.ne_next hd.1
  unfold tmpfsMkdir
  simp only
  cases hfind : t.findEntry d name with
  | some => exact .unchanged h hk
  | none =>
    rw [isSome_none, if_neg Bool.false_ne_true]
    rcases inode with _ | _
    · exact .unchanged h hk
    have hfind' := (alloc_findEntry h hd .directory).trans hfind
    rw [Bool.not_true, if_neg Bool.false_ne_true, addEntry_free hfind']
    rcases entry with _ | _
    · exact allocDestroy_serves h hk
    simp only [if_true]
    -- the counts that the code arrives at step by step
    have hcount : update (t.inodeAlloc .directory).nlink t.nextInode 2 d =
        (t.inodeAlloc .directory).nlink d := update_of_ne hne _ _
    cases wrap with
    | true =>
      rw [if_pos rfl]
      have hlinked := (h.alloc .directory).linkDir name hself.1
        hself.2.1 hself.2.2.1 hdir.1 (findEntry_none hfind')
      rw [← hcount] at hlinked
      refine .gave (hlinked.hold t.nextInode) (hk.created h.fresh rfl rfl fun j hj hjlink => ?_)
      show update (update (update t.nlink t.nextInode 0) t.nextInode 2) d _ j ≠ 0
      by_cases hjd : j = d
      · rw [hjd, update_self]
        exact succ_ne_zero _
      · rw [update_of_ne hjd, update_of_ne hj, update_of_ne hj]
        exact hjlink
    | false =>
      rw [if_neg Bool.false_ne_true]
      have htree := h.allocDestroy .directory d
      have hinode := alloc_destroy_inode h .directory d
      have hentries := takeBack_added (t.inodeAlloc .directory) d t.nextInode name
      -- what the two failures take back is what the calls before them had done
      set a := t.inodeAlloc .directory
      set linked := update a.nlink t.nextInode 2 with hlinked
      have hnlink : update (update (update linked d (linked d + 1)) d
          (update linked d (linked d + 1) d - 1)) t.nextInode 0 = a.nlink := by
        rw [update_idem, update_self, Nat.add_sub_cancel, update_eq_self, hlinked, update_idem,
          ← hself.2.2.1, update_eq_self]
      have hback : ({ a.inodeDestroy t.nextInode with parent := update a.parent t.nextInode d } : Tree) =
          { a.inodeDestroy t.nextInode with
            parent := update a.parent t.nextInode d
            entries := update (update a.entries d (⟨name, t.nextInode⟩ :: a.entries d)) d
              (((update a.entries d (⟨name, t.nextInode⟩ :: a.entries d) d).dropWhile
                fun e => e.name ≠ name).tail)
            nlink := update (update (update linked d (linked d + 1)) d
              (update linked d (linked d + 1) d - 1)) t.nextInode 0 } := by
        rw [hentries, hnlink]
        rfl
      rw [hback] at htree hinode
      exact .failed htree hk hinode

theorem link_serves (hi : t.live i = true) (hd : t.Linked d) {entry : Bool} :
    Serves held t (tmpfsLink t i d name entry) := by
  unfold tmpfsLink
  split_ifs with htype
  · exact .unchanged h hk
  cases hfind : t.findEntry d name with
  | some =>
    unfold addEntry
    rw [hfind]
    exact .unchanged h hk
  | none =>
    rw [addEntry_free hfind]
    cases entry with
    | false => exact .unchanged h hk
    | true =>
      refine .done (h.linkFile hi htype hd (findEntry_none hfind)) (hk.relink rfl rfl fun j _ hj => ?_)
      show update t.nlink i (t.nlink i + 1) j ≠ 0
      by_cases hji : j = i
      · rw [hji, update_self]
        exact succ_ne_zero _
      · rw [update_of_ne hji]
        exact hj

theorem unlink_serves (hd : t.references d ≠ 0) : Serves held t (tmpfsUnlink t d name) := by
  unfold tmpfsUnlink
  cases hf : t.findEntry d name with
  | none => exact .unchanged h hk
  | some e =>
    have he := (findEntry_some hf).1
    simp only
    split_ifs with htype
    · exact .unchanged h hk
    · exact .done (h.removeEntry he fun hdir => absurd hdir htype) (hk.removeEntry hd (h.target d e he))

theorem rmdir_serves (hd : t.references d ≠ 0) : Serves held t (tmpfsRmdir t d name) := by
  unfold tmpfsRmdir
  cases hf : t.findEntry d name with
  | none => exact .unchanged h hk
  | some e =>
    have he := (findEntry_some hf).1
    simp only
    split
    · exact .unchanged h hk
    · split_ifs with hempty
      · exact .unchanged h hk
      · exact .done (h.removeEntry he fun _ => not_not.mp hempty) (hk.removeEntry hd (h.target d e he))

end

end

variable {nd od : Ino} {newName : Name} {c : Call}

/-- An entry moves between directories that the VFS holds. -/
theorem Kept.moveEntry (h : Kept held t) (hod : t.references od ≠ 0) :
    Kept held (t.moveEntry od e nd newName) := by
  unfold Tree.moveEntry
  simp only
  split_ifs with hdir
  · refine h.relink rfl rfl fun j hj hjlink => ?_
    have hjo : j ≠ od := fun hjo => hod (by rw [← hjo]; exact hj)
    show update (update t.nlink od (t.nlink od - 1)) nd
      (update t.nlink od (t.nlink od - 1) nd + 1) j ≠ 0
    by_cases hjn : j = nd
    · rw [hjn, update_self]
      exact succ_ne_zero _
    · rw [update_of_ne hjn, update_of_ne hjo]
      exact hjlink
  · exact h.relink rfl rfl fun j _ hj => hj

theorem rename_kept (oldName newName : Name) {noreplace : Bool} (h : TreeInv t) (hk : Kept held t)
    (hod : t.references od ≠ 0) (hnd : t.references nd ≠ 0) :
    let r := tmpfsRename t od oldName nd newName noreplace
    Kept held r.1 ∧ (∀ i, r.2 ≠ .ok (some i)) ∧ ∀ err, r.2 = .error err → r.1 = t := by
  unfold tmpfsRename
  split
  · exact ⟨hk, by simp, fun _ _ => rfl⟩
  rename_i old hold
  simp only
  split
  · exact ⟨hk, by simp, fun _ _ => rfl⟩
  split
  · exact ⟨hk, by simp, fun _ _ => rfl⟩
  cases (if t.type old.inode = .directory then meets t.parent old.inode t.nextInode nd
      else some false) with
  | none => exact ⟨hk, by simp, fun _ _ => rfl⟩
  | some found =>
    cases found with
    | true => exact ⟨hk, by simp, fun _ _ => rfl⟩
    | false =>
      cases hnew : t.findEntry nd newName with
      | none =>
        simp only [hold]
        exact ⟨hk.moveEntry hod, by simp, by simp⟩
      | some new =>
        have hkept := hk.removeEntry hnd (h.target nd new (findEntry_some hnew).1)
        have hrefs : (t.removeEntry nd new).references = t.references := by
          rw [removeEntry_eq, maybeDestroy_frame.2.2.2.2.1, unlinked_frame.2.2.2.2.1]
        cases (t.removeEntry nd new).findEntry od oldName with
        | none => exact ⟨hkept, by simp, by simp⟩
        | some =>
          exact ⟨hkept.moveEntry (by rw [hrefs]; exact hod), by simp, by simp⟩

theorem rename_serves {oldName : Name} {noreplace : Bool} (h : TreeInv t) (hk : Kept held t)
    (hod : t.references od ≠ 0) (hnd : t.Linked nd)
    (hndref : t.references nd ≠ 0) : Serves held t (tmpfsRename t od oldName nd newName noreplace) := by
  obtain ⟨htree, hreturns⟩ := h.rename od oldName newName noreplace hnd
  obtain ⟨hkept, hnone, herror⟩ := rename_kept oldName newName h hk hod hndref
  generalize tmpfsRename t od oldName nd newName noreplace = r at htree hreturns hkept hnone herror
  refine ⟨htree, ?_, fun err he => by rw [herror err he], hreturns⟩
  obtain ⟨t', reply⟩ := r
  cases reply with
  | ok result =>
    cases result with
    | none => exact hkept
    | some i => exact absurd rfl (hnone i)
  | error err | refused | panic | stuck => exact hkept

/-- `tmpfs_put_inode` gives a reference back. -/
theorem put_keeps (h : TreeInv t) (hk : Kept held t) (hi : t.live i = true) :
    TreeInv (tmpfsPutInode t i).1 ∧ Kept (update held i (held i - 1)) (tmpfsPutInode t i).1 := by
  obtain ⟨hrefs, hgone⟩ := hk.recount hi (· - 1)
  refine ⟨(h.references _).maybeDestroy hi, .maybeDestroy hrefs hgone (fun j hj hji => ?_) hi⟩
  show t.nlink j ≠ 0 ∨ update t.references i (t.references i - 1) j ≠ 0
  rw [update_of_ne hji]
  exact hk.kept j hj

/-! ## Runs -/

/-- A directory that the VFS holds and that has links. -/
theorem Tree.HeldDir.linked (h : t.HeldDir d) (hlink : t.nlink d ≠ 0) : t.Linked d :=
  ⟨h.1.1, h.2, hlink⟩

theorem operate_serves (h : TreeInv t) (hk : Kept held t) (hput : ∀ i, c ≠ .put i) (hoffer : t.Offers c)
    (hadds : Adds t c) : Serves held t (t.operate c) := by
  cases c with
  | lookup => exact lookup_serves h hk
  | create => exact makeNode_serves h hk .regular nofun (hoffer.linked hadds)
  | mkdir d name inode entry wrap => exact mkdir_serves h hk (hoffer.linked hadds) inode entry wrap
  | symlink => exact makeNode_serves h hk .symlink nofun (hoffer.linked hadds)
  | mknod d name type =>
    cases type with
    | regular | directory | symlink => exact .unchanged h hk
    | charDevice => exact makeNode_serves h hk .charDevice nofun (hoffer.linked hadds)
    | blockDevice => exact makeNode_serves h hk .blockDevice nofun (hoffer.linked hadds)
    | fifo => exact makeNode_serves h hk .fifo nofun (hoffer.linked hadds)
    | socket => exact makeNode_serves h hk .socket nofun (hoffer.linked hadds)
  | link => exact link_serves h hk hoffer.1.1 (hoffer.2.linked hadds)
  | unlink => exact unlink_serves h hk hoffer.1.2
  | rmdir => exact rmdir_serves h hk hoffer.1.2
  | rename =>
    exact rename_serves h hk hoffer.1.1.2 (hoffer.2.linked hadds) hoffer.2.1.2
  | put i => exact absurd rfl (hput i)

theorem account_eq_gained (hput : ∀ i, c ≠ .put i) : account t held c = gained held (t.serve c).2 := by
  unfold account gained
  cases c with
  | put i => exact absurd rfl (hput i)
  | _ =>
    generalize (t.serve _).2 = reply
    cases reply with
    | ok result => cases result <;> rfl
    | _ => rfl

/-- What a call keeps: the tree and the references; it changes no inode if it fails, and it returns. -/
theorem step_keeps (h : TreeInv t) (hk : Kept held t) (hadds : Adds t c) :
    TreeInv (t.step c) ∧ Kept (account t held c) (t.step c) ∧
      (∀ e, (t.serve c).2 = .error e → (t.step c).inode = t.inode) ∧
      (t.serve c).2 ≠ .stuck ∧ (t.serve c).2 ≠ .panic := by
  by_cases hoffer : t.Offers c
  · have hserve : t.serve c = t.operate c := if_pos hoffer
    by_cases hput : ∃ i, c = .put i
    · obtain ⟨i, rfl⟩ := hput
      obtain ⟨htree, hkept⟩ := put_keeps h hk hoffer.1
      unfold step account
      rw [hserve]
      exact ⟨htree, hkept, nofun, nofun, nofun⟩
    rw [not_exists] at hput
    have hs := operate_serves h hk hput hoffer hadds
    rw [account_eq_gained hput]
    unfold step
    rw [hserve]
    exact ⟨hs.tree, hs.kept, hs.error, hs.returns⟩
  · have hserve : t.serve c = (t, .refused) := if_neg hoffer
    have haccount : account t held c = held := by
      unfold account
      rw [hserve]
      cases c <;> rfl
    rw [haccount]
    unfold step
    rw [hserve]
    exact ⟨h, hk, nofun, nofun, nofun⟩

/-- The superblock holds the root. -/
def mountHeld (i : Ino) : Nat := if i = 1 then 1 else 0

theorem mount_inv : TreeInv mount := by
  have hone : ∀ i, mount.live i = true → i = 1 := fun i hi => by simpa [mount] using hi
  refine ⟨⟨fun i hi => ?_, fun _ _ => rfl, fun _ _ => rfl, fun _ => ?_, nofun⟩, nofun, nofun, fun i hi _ _ hroot => ?_,
    fun d hd _ _ => ?_, fun _ _ _ _ => rfl, fun i _ hi => ?_, ⟨rfl, rfl, by decide, rfl⟩, fun i hi _ _ => ?_⟩
  · rw [hone i hi]
    decide
  · exact List.Pairwise.nil
  · exact absurd (hone i hi) hroot
  · rw [hone d hd]
    rfl
  · exact absurd rfl hi
  · rw [hone i hi]
    exact .root

theorem mount_kept : Kept mountHeld mount := by
  refine ⟨fun i _ => rfl, fun i hi => ?_, fun i hi => .inl ?_⟩
  · have hne : i ≠ 1 := fun hi1 => by
      rw [hi1] at hi
      cases hi
    exact if_neg hne
  · have hone : i = 1 := by simpa [mount] using hi
    rw [hone]
    decide

/-- A linked directory other than the root is named once, by its parent. -/
theorem TreeInv.named_once (h : TreeInv t) (hi : t.live i = true) (htype : t.type i = .directory)
    (hlink : t.nlink i ≠ 0) (hroot : i ≠ t.root) : Weighs (t.naming i) 1 := by
  obtain ⟨e, he, hei⟩ := h.placed i hi htype hlink hroot
  have hetype : t.type e.inode = .directory := by rw [hei]; exact htype
  have hone : t.naming i (t.parent i) = 1 := by
    have hcount : (t.entries (t.parent i)).countP (fun x => x.inode = i) = (t.entries (t.parent i)).count e := by
      refine List.countP_congr fun x hx => ?_
      rw [decide_eq_true_eq, beq_iff_eq]
      refine ⟨fun hxi => h.single _ e he x hx (hxi.trans hei.symm) hetype, fun hxe => ?_⟩
      rw [hxe]
      exact hei
    unfold naming
    rw [hcount, List.count_eq_one_of_mem (h.names _).nodup he]
  refine (weighs_none (w := fun _ : Ino => 0) fun _ => rfl).change (fun d hd => ?_) (by rw [hone])
  refine List.countP_eq_zero.mpr fun x hx hxi => hd ?_
  have hxi : x.inode = i := of_decide_eq_true hxi
  have hchild := (h.child d x hx (by rw [hxi]; exact htype)).1
  rw [hxi] at hchild
  exact hchild.symm

/-- What holds of the names, the link counts and the references of a tmpfs. -/
structure NamespaceOk (held : Ino → Nat) (t : Tree) : Prop where
  names : ∀ d, ((t.entries d).map Entry.name).Nodup
  /-- a directory with links, other than the root, is named by one entry of all, in its parent -/
  parentEntry : ∀ i, t.live i = true → t.type i = .directory → t.nlink i ≠ 0 → i ≠ t.root →
    Weighs (t.naming i) 1 ∧ ∃ e ∈ t.entries (t.parent i), e.inode = i
  /-- going from parent to parent gets to the root -/
  reaches : ∀ i, t.live i = true → t.type i = .directory → t.nlink i ≠ 0 → ∃ n, t.parent^[n] i = t.root
  directories : ∀ d, t.live d = true → t.type d = .directory → t.nlink d ≠ 0 → t.nlink d = 2 + t.subdirectories d
  others : ∀ i, t.live i = true → t.type i ≠ .directory → Weighs (t.naming i) (t.nlink i)
  removed : ∀ d, t.live d = true → t.type d = .directory → t.nlink d = 0 → t.entries d = []
  references : ∀ i, t.live i = true → t.references i = held i
  /-- an inode has been destroyed only when it had neither references nor names, and then at once -/
  destroyed : ∀ i, t.live i = false → held i = 0 ∧ ∀ d, t.naming i d = 0
  kept : ∀ i, t.live i = true → t.nlink i ≠ 0 ∨ t.references i ≠ 0
  /-- a call that fails leaves every inode as it is; no call fails to return -/
  failing : ∀ c, Adds t c → ∀ e, (t.serve c).2 = .error e → (t.step c).inode = t.inode
  returning : ∀ c, Adds t c → (t.serve c).2 ≠ .stuck ∧ (t.serve c).2 ≠ .panic

theorem namespaceOk_of_kept (h : TreeInv t) (hk : Kept held t) : NamespaceOk held t where
  names := h.names
  parentEntry := fun i hi htype hlink hroot => ⟨h.named_once hi htype hlink hroot, h.placed i hi htype hlink hroot⟩
  reaches := fun i hi htype hlink => (h.reaches i hi htype hlink).iterate
  directories := h.dirs
  others := h.files
  removed := h.removed
  references := hk.refs
  destroyed := fun i hi => ⟨hk.gone i hi, fun _ => List.countP_eq_zero.mpr fun _ he hei =>
    h.unnamed_dead hi he (of_decide_eq_true hei)⟩
  kept := hk.kept
  failing := fun _ hadds => (step_keeps h hk hadds).2.2.1
  returning := fun _ hadds => (step_keeps h hk hadds).2.2.2

/-- **The namespace of tmpfs**: in every run that adds no entry to a directory without links, the names form a
    tree with the right counts, inodes stay as long as they have names or references, and failing calls change
    nothing. -/
theorem tmpfs_namespace (l : List Call) (hadds : Along step Adds mount l) :
    NamespaceOk (record step account mount mountHeld l) (l.foldl step mount) := by
  have hinv := Along.invariant (I := fun held t => TreeInv t ∧ Kept held t)
    (fun _ _ _ hi ha => ⟨(step_keeps hi.1 hi.2 ha).1, (step_keeps hi.1 hi.2 ha).2.1⟩) ⟨mount_inv, mount_kept⟩ hadds
  exact namespaceOk_of_kept hinv.1 hinv.2

instance (t : Tree) (c : Call) : Decidable (Adds t c) :=
  match c with
  | .create d .. | .mkdir d .. | .symlink d .. | .mknod d .. | .link _ d .. =>
    inferInstanceAs (Decidable (t.nlink d ≠ 0))
  | .rename _ _ nd .. => inferInstanceAs (Decidable (t.nlink nd ≠ 0))
  | .lookup .. | .unlink .. | .rmdir .. | .put _ => isTrue trivial

def letter (c : UInt8) : Name := ⟨[c], List.cons_ne_nil c [], by simp⟩

def nameA : Name := letter 97

def nameB : Name := letter 98

/-- Two directories are made; a file is created in the first, gets a second name in the other one and loses the
    first; the directories are removed, not before the second is empty; the file goes with the last reference. -/
def twoDirectories : List Call :=
  [.mkdir 1 nameA true true true, .mkdir 2 nameB true true true, .create 3 nameA true true true,
    .link 4 2 nameA true, .rename 2 nameB 1 nameB false, .rmdir 1 nameB, .unlink 3 nameA, .rmdir 1 nameB,
    .create 2 nameB true true false, .unlink 2 nameA, .put 4]

theorem twoDirectories_namespace :
    Along step Adds mount twoDirectories ∧
    (twoDirectories.foldl step mount).inode 2 = some ⟨.directory, 2, 1, 1, []⟩ ∧
    NamespaceOk (record step account mount mountHeld twoDirectories)
      (twoDirectories.foldl step mount) :=
  ⟨by decide +kernel, by decide +kernel, tmpfs_namespace twoDirectories (by decide +kernel)⟩

/-- A directory that is removed while the VFS holds it, as a working directory say, gains an entry:
    `tmpfs_create` does not look at the link count of the directory. -/
theorem removedDirectory_gains_entry :
    let t := [Call.mkdir 1 nameA true true true, .rmdir 1 nameA].foldl step mount
    t.inode 2 = some ⟨.directory, 0, 1, 1, []⟩ ∧
    (t.serve (.create 2 nameB true true true)).2 = .ok (some 3) ∧
    (t.step (.create 2 nameB true true true)).inode 2 = some ⟨.directory, 0, 1, 1, [⟨nameB, 3⟩]⟩ := by
  decide +kernel

end Caffeinix.Tmpfs
