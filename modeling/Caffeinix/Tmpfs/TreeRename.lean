import Caffeinix.Tmpfs.TreeInvariant

/-!
# `Tmpfs.TreeRename` — `tmpfs_rename` keeps the tree

An entry that names a file moves by a link that goes and a link that comes. The entry of a directory takes
everything below along; the new directory must not be among it, which is what the search along the parents
(`Chains.meets`) has found out.
-/

namespace Caffeinix.Tmpfs

open Chains List
open Function (update update_eq_self update_idem update_of_ne update_self)

variable {t : Tree} {od nd : Ino} {e : Entry} {newName : Name}

section
variable (h : TreeInv t) (he : e ∈ t.entries od)
include h he

/-- The entry of a file moves. -/
theorem TreeInv.moveFile (htype : t.type e.inode ≠ .directory) (hnd : t.Linked nd)
    (hname : ∀ x ∈ t.entries nd, x.name ≠ newName) : TreeInv (t.moveEntry od e nd newName) := by
  have hlive := h.target od e he
  have hgone := h.unlinkFile he htype
  have hpos : 0 < t.nlink e.inode := by
    have hle : (t.entries od).countP (fun x => x.inode = e.inode) ≤ t.nlink e.inode := (h.files _ hlive htype).le od
    have hcount : 0 < (t.entries od).countP (fun x => x.inode = e.inode) :=
      countP_pos_iff.mpr ⟨e, he, by simp⟩
    omega
  have hne : nd ≠ e.inode := fun hni => htype (by rw [← hni]; exact hnd.2.1)
  have hcome := hgone.linkFile hlive htype
    ⟨hnd.1, hnd.2.1, by
      show update t.nlink e.inode _ nd ≠ 0
      rw [update_of_ne hne]
      exact hnd.2.2⟩
    (fun x hx => hname x ((entries_detach h he nd).mp hx).1)
  -- one link less and one more
  have hnlink : update (update t.nlink e.inode (t.nlink e.inode - 1)) e.inode
      (update t.nlink e.inode (t.nlink e.inode - 1) e.inode + 1) = t.nlink := by
    rw [update_self, update_idem, Nat.sub_add_cancel hpos, update_eq_self]
  unfold Tree.moveEntry
  rw [if_neg (by
    rw [Bool.and_eq_true, decide_eq_true_eq]
    exact fun hdir => htype hdir.1)]
  have heq : (t.detachEntry od e).setEntries nd (⟨newName, e.inode⟩ :: (t.detachEntry od e).entries nd) =
      { (t.detachEntry od e).setEntries nd (⟨newName, e.inode⟩ :: (t.detachEntry od e).entries nd) with
        nlink := update (update t.nlink e.inode (t.nlink e.inode - 1)) e.inode
          (update t.nlink e.inode (t.nlink e.inode - 1) e.inode + 1) } := by
    rw [hnlink]
    rfl
  rw [heq]
  exact hcome

variable (htype : t.type e.inode = .directory)
include htype

/-- The entry of a directory moves, to a directory that is not below it. -/
theorem TreeInv.moveDir (hnd : t.Linked nd)
    (hname : ∀ x ∈ t.entries nd, x.name ≠ newName) (hapart : ReachesWithout t.parent t.root e.inode nd) :
    TreeInv { (t.detachEntry od e).setEntries nd (⟨newName, e.inode⟩ :: (t.detachEntry od e).entries nd) with
      nlink := fun j => t.nlink j - (if j = od then 1 else 0) + if j = nd then 1 else 0
      parent := update t.parent e.inode nd } := by
  have hlive := h.target od e he
  have hod := h.directory he
  obtain ⟨-, hlinked, hnroot⟩ := h.child od e he htype
  have hlisted := (h.toListed.detach od e).cons newName ⟨hnd.1, hnd.2.1⟩ hlive
    (fun x hx => hname x ((entries_detach h he nd).mp hx).1)
  set entries := update (t.detachEntry od e).entries nd (⟨newName, e.inode⟩ :: (t.detachEntry od e).entries nd)
  set nlink : Ino → Nat := fun j => t.nlink j - (if j = od then 1 else 0) + if j = nd then 1 else 0
  have hnlink : ∀ j, nlink j = t.nlink j - (if j = od then 1 else 0) + if j = nd then 1 else 0 := fun j => rfl
  -- the moved entry is counted in the new directory and no more in the old one
  have hcount : ∀ c (p : Entry → Bool), (entries c).countP p + (if c = od ∧ p e then 1 else 0) =
      (t.entries c).countP p + if c = nd ∧ p ⟨newName, e.inode⟩ then 1 else 0 := by
    intro c p
    rw [countP_detachEntry h he c p]
    by_cases hcn : c = nd
    · rw [hcn, show entries nd = _ from update_self _ _ _, countP_cons]
      simp only [true_and]
      omega
    · rw [show entries c = _ from update_of_ne hcn _ _, if_neg (show ¬ (c = nd ∧ _) from fun hc => hcn hc.1),
        Nat.add_zero]
  have hodlink : 2 < t.nlink od := by
    have hsubod : 0 < t.subdirectories od := countP_pos_iff.mpr ⟨e, he, by simpa using htype⟩
    have := h.dirs od hod.1 hod.2.1 hod.2.2
    omega
  have hzero : ∀ j, nlink j = 0 ↔ t.nlink j = 0 := by
    intro j
    rw [hnlink]
    by_cases hjo : j = od
    · rw [hjo, if_pos rfl]
      omega
    rw [if_neg hjo]
    by_cases hjn : j = nd
    · have := hnd.2.2
      rw [hjn, if_pos rfl]
      omega
    · rw [if_neg hjn]
      omega
  have hparent' : ∀ j, j ≠ e.inode → update t.parent e.inode nd j = t.parent j := fun j hj => update_of_ne hj _ _
  show TreeInv { t with entries := entries, nlink := nlink, parent := update t.parent e.inode nd }
  refine h.of_directory ⟨newName, e.inode⟩ htype hnroot hlisted (fun c p hp => ?_) (fun c x hx hxi => ?_)
    (fun _ => ?_) (fun hz => absurd ((hzero _).mp hz) hlinked) hparent' (fun j _ => hzero j) (fun j hj => ?_)
    (fun c hc hctype hclink => ?_) fun j hj hjtype hjlink => ?_
  · have hc := hcount c p
    rw [hp e rfl, hp ⟨newName, e.inode⟩ rfl] at hc
    simpa using hc
  · refine ⟨fun hz => hlinked ((hzero _).mp hz), ?_⟩
    rw [update_self]
    by_cases hcn : c = nd
    · rw [hcn, show entries nd = _ from update_self _ _ _] at hx
      rcases mem_cons.mp hx with hx | hx
      · exact ⟨hcn, hx⟩
      · exact absurd hxi (h.unnamed_else he htype hx)
    · rw [show entries c = _ from update_of_ne hcn _ _] at hx
      exact absurd hxi (h.unnamed_else he htype hx)
  · rw [update_self]
    refine ⟨fun hz => hnd.2.2 ((hzero nd).mp hz), ?_, rfl⟩
    rw [show entries nd = _ from update_self _ _ _]
    exact mem_cons_self
  · rw [hnlink, if_neg fun hjo => hj (by rw [hjo]; exact hod.2.1),
      if_neg fun hjn => hj (by rw [hjn]; exact hnd.2.1), Nat.sub_zero, Nat.add_zero]
  · have hold : t.nlink c = 2 + (t.entries c).countP _ := h.dirs c hc hctype fun hz => hclink ((hzero c).mpr hz)
    have hcc := hcount c fun x => t.type x.inode = .directory
    simp only [decide_eq_true htype, and_true] at hcc
    rw [hnlink]
    by_cases hco : c = od
    · simp only [if_pos hco] at hcc ⊢
      omega
    · simp only [if_neg hco] at hcc ⊢
      omega
  · exact (h.reaches j hj hjtype fun hz => hjlink ((hzero j).mpr hz)).reparent hapart (update_self _ _ _) hparent'

/-- `moveEntry` of a directory, in one piece. Inside one directory the counts and the parent stay. -/
theorem moveEntry_dir : t.moveEntry od e nd newName =
      { (t.detachEntry od e).setEntries nd (⟨newName, e.inode⟩ :: (t.detachEntry od e).entries nd) with
        nlink := fun j => t.nlink j - (if j = od then 1 else 0) + if j = nd then 1 else 0
        parent := update t.parent e.inode nd } := by
  have hod := h.directory he
  unfold Tree.moveEntry
  by_cases hsame : od = nd
  · rw [if_neg (by simp [hsame])]
    have hnlink : (fun j => t.nlink j - (if j = od then 1 else 0) + if j = nd then 1 else 0) = t.nlink := by
      funext j
      by_cases hj : j = od
      · rw [← hsame, if_pos hj, hj]
        omega
      · rw [← hsame, if_neg hj]
        omega
    have hparent : update t.parent e.inode nd = t.parent := by
      rw [← hsame, ← (h.child od e he htype).1]
      exact update_eq_self _ _
    rw [hnlink, hparent]
    rfl
  · rw [if_pos (by
      rw [Bool.and_eq_true]
      exact ⟨decide_eq_true htype, decide_eq_true hsame⟩)]
    have hnlink : update (update t.nlink od (t.nlink od - 1)) nd
        (update t.nlink od (t.nlink od - 1) nd + 1) =
          fun j => t.nlink j - (if j = od then 1 else 0) + if j = nd then 1 else 0 := by
      funext j
      by_cases hjn : j = nd
      · rw [hjn, update_self, update_of_ne (Ne.symm hsame), if_neg (Ne.symm hsame), if_pos rfl,
          Nat.sub_zero]
      · rw [update_of_ne hjn, if_neg hjn, Nat.add_zero]
        by_cases hjo : j = od
        · rw [hjo, update_self, if_pos rfl]
        · rw [update_of_ne hjo, if_neg hjo, Nat.sub_zero]
    rw [← hnlink]
    rfl

end

/-! ## Removing what is in the way -/

/-- An inode that may be destroyed keeps what it has. -/
theorem maybeDestroy_frame {i : Ino} :
    let r := t.inodeMaybeDestroy i
    r.entries = t.entries ∧ r.type = t.type ∧ r.parent = t.parent ∧ r.root = t.root ∧
    r.references = t.references ∧ r.nlink = t.nlink ∧ ∀ c, c ≠ i → r.live c = t.live c := by
  unfold Tree.inodeMaybeDestroy
  split_ifs
  · exact ⟨rfl, rfl, rfl, rfl, rfl, rfl, fun c hc => update_of_ne hc _ _⟩
  · exact ⟨rfl, rfl, rfl, rfl, rfl, rfl, fun _ _ => rfl⟩

/-- The tree before the inode of the entry is perhaps destroyed. -/
def Tree.unlinked (t : Tree) (d : Ino) (e : Entry) : Tree :=
  if t.type e.inode = .directory then ((t.detachEntry d e).setNlink d (t.nlink d - 1)).setNlink e.inode 0
  else (t.detachEntry d e).setNlink e.inode (t.nlink e.inode - 1)

theorem removeEntry_eq (t : Tree) (d : Ino) (e : Entry) :
    t.removeEntry d e = (t.unlinked d e).inodeMaybeDestroy e.inode := rfl

theorem unlinked_frame {d : Ino} :
    (t.unlinked d e).entries = (t.detachEntry d e).entries ∧ (t.unlinked d e).type = t.type ∧
    (t.unlinked d e).parent = t.parent ∧ (t.unlinked d e).root = t.root ∧
    (t.unlinked d e).references = t.references ∧ (t.unlinked d e).live = t.live := by
  unfold Tree.unlinked
  split_ifs
  · exact ⟨rfl, rfl, rfl, rfl, rfl, rfl⟩
  · exact ⟨rfl, rfl, rfl, rfl, rfl, rfl⟩

theorem removeEntry_entries (t : Tree) (d : Ino) (e : Entry) :
    (t.removeEntry d e).entries = (t.detachEntry d e).entries := by
  rw [removeEntry_eq, maybeDestroy_frame.1, unlinked_frame.1]

theorem removeEntry_frame {d : Ino} :
    (t.removeEntry d e).type = t.type ∧ (t.removeEntry d e).parent = t.parent ∧
    (t.removeEntry d e).root = t.root ∧ ∀ c, c ≠ e.inode → (t.removeEntry d e).live c = t.live c := by
  obtain ⟨-, htype, hparent, hroot, -, -, hlive⟩ := maybeDestroy_frame
  obtain ⟨-, htype', hparent', hroot', -, hlive'⟩ := unlinked_frame
  rw [removeEntry_eq]
  exact ⟨htype.trans htype', hparent.trans hparent', hroot.trans hroot', fun c hc => by rw [hlive c hc, hlive']⟩

/-- A link count that an entry which goes leaves alone or lowers. -/
theorem unlinked_nlink (t : Tree) (d : Ino) (e : Entry) {c : Ino} (hc : c ≠ e.inode) :
    (t.unlinked d e).nlink c = t.nlink c - if t.type e.inode = .directory ∧ c = d then 1 else 0 := by
  unfold Tree.unlinked
  by_cases htype : t.type e.inode = .directory
  · rw [if_pos htype]
    show update (update t.nlink d (t.nlink d - 1)) e.inode 0 c = _
    rw [update_of_ne hc]
    by_cases hcd : c = d
    · rw [hcd, update_self, if_pos ⟨htype, rfl⟩]
    · rw [update_of_ne hcd, if_neg fun hcd' => hcd hcd'.2, Nat.sub_zero]
  · rw [if_neg htype, if_neg fun htype' => htype htype'.1, Nat.sub_zero]
    exact update_of_ne hc _ _

/-- A linked directory stays linked when one of its entries goes. -/
theorem TreeInv.linked_removeEntry (h : TreeInv t) (he : e ∈ t.entries nd)
    (hempty : t.type e.inode = .directory → t.entries e.inode = []) :
    (t.removeEntry nd e).live nd = true ∧ (t.removeEntry nd e).type nd = .directory ∧
      (t.removeEntry nd e).nlink nd ≠ 0 := by
  have hnd := h.directory he
  have hne : nd ≠ e.inode := fun hne => by
    have htype : t.type e.inode = .directory := by
      rw [← hne]
      exact hnd.2.1
    have hnil := hempty htype
    rw [← hne] at hnil
    rw [hnil] at he
    cases he
  obtain ⟨htype, -, -, hlive⟩ := removeEntry_frame
  refine ⟨(hlive nd hne).trans hnd.1, by rw [htype]; exact hnd.2.1, ?_⟩
  rw [removeEntry_eq, maybeDestroy_frame.2.2.2.2.2.1, unlinked_nlink t nd e hne]
  by_cases hdir : t.type e.inode = .directory
  · have hsub : 0 < t.subdirectories nd := countP_pos_iff.mpr ⟨e, he, by simpa using hdir⟩
    have hlink := h.dirs nd hnd.1 hnd.2.1 hnd.2.2
    rw [if_pos ⟨hdir, rfl⟩]
    omega
  · rw [if_neg fun hdir' => hdir hdir'.1]
    exact hnd.2.2

/-! ## The whole operation -/

/-- The search ends: the chain of a linked directory is shorter than there are inodes. -/
theorem TreeInv.meets_isSome (h : TreeInv t) {source : Ino}
    (hnd : t.Linked nd) :
    (meets t.parent source t.nextInode nd).isSome := by
  have hchain : ∀ k, t.live (t.parent^[k] nd) = true ∧ t.type (t.parent^[k] nd) = .directory ∧
      t.nlink (t.parent^[k] nd) ≠ 0 := by
    intro k
    induction k with
    | zero => exact hnd
    | succ k ih =>
      rw [Function.iterate_succ_apply']
      by_cases hroot : t.parent^[k] nd = t.root
      · rw [hroot, h.root.2.2.2]
        exact ⟨h.root.1, h.root.2.1, h.root.2.2.1⟩
      · obtain ⟨x, hx, -⟩ := h.placed _ ih.1 ih.2.1 ih.2.2 hroot
        exact h.directory hx
  obtain ⟨k, hk, hkroot⟩ := iterate_lt (h.reaches nd hnd.1 hnd.2.1 hnd.2.2).iterate
    (fun k => h.bound _ (hchain k).1)
  exact meets_isSome_of_iterate h.root.2.2.2 hkroot hk

/-- Moving to a place that is free. -/
theorem TreeInv.moveEntry (h : TreeInv t) (he : e ∈ t.entries od)
    (hnd : t.Linked nd)
    (hname : ∀ x ∈ t.entries nd, x.name ≠ newName)
    (hapart : t.type e.inode = .directory → ReachesWithout t.parent t.root e.inode nd) :
    TreeInv (t.moveEntry od e nd newName) := by
  by_cases htype : t.type e.inode = .directory
  · rw [moveEntry_dir h he htype]
    exact h.moveDir he htype hnd hname (hapart htype)
  · exact h.moveFile he htype hnd hname

/-- What a conflict that is none says. -/
theorem renameConflict_none {source : Ino} {noreplace : Bool} (hc : renameConflict t source noreplace e = none)
    (htype : t.type e.inode = .directory) : t.entries e.inode = [] := by
  unfold renameConflict at hc
  split_ifs at hc with h₁ h₂ h₃ h₄
  by_contra hne
  exact h₄ (by rw [Bool.and_eq_true]; exact ⟨decide_eq_true htype, decide_eq_true hne⟩)

/-- `tmpfs_rename` into a linked directory keeps the tree, and returns. -/
theorem TreeInv.rename (h : TreeInv t) (od : Ino) (oldName newName : Name) (noreplace : Bool)
    (hnd : t.Linked nd) :
    let r := tmpfsRename t od oldName nd newName noreplace
    TreeInv r.1 ∧ r.2 ≠ .stuck ∧ r.2 ≠ .panic := by
  unfold tmpfsRename
  split
  · exact ⟨h, by simp, by simp⟩
  rename_i old hold
  obtain ⟨hmem, hname⟩ := findEntry_some hold
  simp only
  by_cases hsame : (t.findEntry nd newName).any (fun e => e.inode = old.inode) = true
  · rw [if_pos hsame]
    exact ⟨h, by simp, by simp⟩
  rw [if_neg hsame]
  split
  · exact ⟨h, by simp, by simp⟩
  rename_i hconf
  -- the search for the source above the new directory
  have hsearch : (if t.type old.inode = .directory then meets t.parent old.inode t.nextInode nd
      else some false).isSome := by
    split_ifs
    · exact h.meets_isSome hnd
    · rfl
  cases hmeets : (if t.type old.inode = .directory then meets t.parent old.inode t.nextInode nd
      else some false) with
  | none =>
    rw [hmeets] at hsearch
    cases hsearch
  | some found =>
    cases found with
    | true => exact ⟨h, by simp, by simp⟩
    | false =>
      have hapart : t.type old.inode = .directory →
          ReachesWithout t.parent t.root old.inode nd := by
        intro htype
        rw [if_pos htype] at hmeets
        exact .of_meets h.root.2.2.2 (h.reaches nd hnd.1 hnd.2.1 hnd.2.2) hmeets
      cases hnew : t.findEntry nd newName with
      | none =>
        simp only [hold]
        exact ⟨h.moveEntry hmem hnd (findEntry_none hnew) hapart, by simp, by simp⟩
      | some new =>
        obtain ⟨hnewmem, hnewname⟩ := findEntry_some hnew
        rw [hnew] at hsame hconf
        have hdiff : new.inode ≠ old.inode := fun hi => hsame (by simpa using hi)
        have hempty := fun htype => renameConflict_none hconf htype
        have hgone := h.removeEntry hnewmem hempty
        have hnd' := h.linked_removeEntry hnewmem hempty
        obtain ⟨htypes, hparents, hroot, -⟩ := removeEntry_frame
        have hentries : ∀ c x, x ∈ (t.removeEntry nd new).entries c ↔
            x ∈ t.entries c ∧ ¬ (c = nd ∧ x = new) := by
          rw [removeEntry_entries]
          exact entries_detach h hnewmem
        have hmem' : old ∈ (t.removeEntry nd new).entries od :=
          (hentries od old).mpr ⟨hmem, fun ho => hdiff (by rw [ho.2])⟩
        -- the old entry is still the one that is found
        have hfind : (t.removeEntry nd new).findEntry od oldName = some old := by
          cases hf : (t.removeEntry nd new).findEntry od oldName with
          | none => exact absurd hname (findEntry_none hf old hmem')
          | some =>
            obtain ⟨hother, hothername⟩ := findEntry_some hf
            rw [(hgone.names od).inj hother hmem' (hothername.trans hname.symm)]
        simp only [hfind]
        refine ⟨hgone.moveEntry hmem' hnd' (fun x hx hxname => ?_) ?_, by simp, by simp⟩
        · obtain ⟨hx, hxe⟩ := (hentries nd x).mp hx
          exact hxe ⟨rfl, (h.names nd).inj hx hnewmem (hxname.trans hnewname.symm)⟩
        · rw [htypes, hparents, hroot]
          exact hapart

end Caffeinix.Tmpfs
