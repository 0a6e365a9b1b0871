import Caffeinix.Lib.Keyed
import Caffeinix.Lib.Weights
import Caffeinix.Tmpfs.Tree

/-!
# `Tmpfs.TreeInvariant` — the names of tmpfs form a tree

`TreeInv` says that the directories form a tree under the root and that the link counts are right. It says
nothing about references: an inode without links may be there. The lemmas are about the changes that the
operations are made of: a new inode, a new link, a link that goes, an entry that moves, and an inode that is
destroyed.
-/

namespace Caffeinix.Tmpfs

open Nat List Chains Tmpfs.Tree
open Function (update update_apply update_eq_self update_of_ne update_self)

/-- How many entries of the directory name the inode. -/
def Tree.naming (t : Tree) (i d : Ino) : Nat := (t.entries d).countP fun e => e.inode = i

/-- How many entries of the directory name directories. -/
def Tree.subdirectories (t : Tree) (d : Ino) : Nat := (t.entries d).countP fun e => t.type e.inode = .directory

/-- Only directories that are there have entries, with different names, which name inodes that are there. -/
structure Listed (t : Tree) : Prop where
  bound : ∀ i, t.live i = true → i < t.nextInode
  dead : ∀ d, t.live d = false → t.entries d = []
  plain : ∀ d, t.type d ≠ .directory → t.entries d = []
  names : ∀ d, Keyed Entry.name (t.entries d)
  target : ∀ d, ∀ e ∈ t.entries d, t.live e.inode = true

structure TreeInv (t : Tree) : Prop extends Listed t where
  /-- a directory has one parent, and is named there once -/
  child : ∀ d, ∀ e ∈ t.entries d, t.type e.inode = .directory →
    t.parent e.inode = d ∧ t.nlink e.inode ≠ 0 ∧ e.inode ≠ t.root
  single : ∀ d, ∀ e ∈ t.entries d, ∀ e' ∈ t.entries d, e'.inode = e.inode → t.type e.inode = .directory → e' = e
  placed : ∀ i, t.live i = true → t.type i = .directory → t.nlink i ≠ 0 → i ≠ t.root →
    ∃ e ∈ t.entries (t.parent i), e.inode = i
  dirs : ∀ d, t.live d = true → t.type d = .directory → t.nlink d ≠ 0 → t.nlink d = 2 + t.subdirectories d
  removed : ∀ d, t.live d = true → t.type d = .directory → t.nlink d = 0 → t.entries d = []
  files : ∀ i, t.live i = true → t.type i ≠ .directory → Weighs (t.naming i) (t.nlink i)
  root : t.live t.root = true ∧ t.type t.root = .directory ∧ t.nlink t.root ≠ 0 ∧ t.parent t.root = t.root
  reaches : ∀ i, t.live i = true → t.type i = .directory → t.nlink i ≠ 0 → Reaches t.parent t.root i

/-- A directory that has its place in the tree. -/
abbrev Tree.Linked (t : Tree) (d : Ino) : Prop := t.live d = true ∧ t.type d = .directory ∧ t.nlink d ≠ 0

variable {t : Tree} {d i : Ino} {e : Entry} {name : Name}

section
variable (h : TreeInv t)
include h

/-- The directory of an entry is linked. -/
theorem TreeInv.directory (he : e ∈ t.entries d) : t.Linked d := by
  have hne : t.entries d ≠ [] := ne_nil_of_mem he
  have hlive : t.live d = true := by
    by_contra hdead
    exact hne (h.dead d (Bool.eq_false_iff.mpr hdead))
  have htype : t.type d = .directory := by
    by_contra hplain
    exact hne (h.plain d hplain)
  exact ⟨hlive, htype, fun hzero => hne (h.removed d hlive htype hzero)⟩

/-- Nothing names an inode without links. -/
theorem TreeInv.unnamed (hlive : t.live i = true) (hlink : t.nlink i = 0) (he : e ∈ t.entries d) :
    e.inode ≠ i := by
  intro hname
  by_cases htype : t.type i = .directory
  · have hchild := (h.child d e he (by rw [hname]; exact htype)).2.1
    rw [hname] at hchild
    exact hchild hlink
  · have hfiles := h.files i hlive htype
    rw [hlink] at hfiles
    have hzero : (t.entries d).countP (fun e => e.inode = i) = 0 := hfiles.zero d
    exact absurd (decide_eq_true hname) (countP_eq_zero.mp hzero e he)

/-- Nothing names an inode that is not there. -/
theorem TreeInv.unnamed_dead (hdead : t.live i = false) (he : e ∈ t.entries d) : e.inode ≠ i := by
  intro hname
  have hlive := h.target d e he
  rw [hname, hdead] at hlive
  cases hlive

theorem TreeInv.fresh : t.live t.nextInode = false := by
  by_contra hlive
  exact lt_irrefl _ (h.bound _ (Bool.eq_true_of_not_eq_false hlive))

/-- The chain of a linked directory meets linked directories only. -/
theorem TreeInv.reaches_of_linked {parent' : Ino → Ino} (hsame : ∀ b, t.Linked b → parent' b = t.parent b)
    (hi : t.Linked i) : Reaches parent' t.root i := by
  refine (h.reaches i hi.1 hi.2.1 hi.2.2).congr_on hi (fun b hb hbr => ?_) hsame
  obtain ⟨e, he, -⟩ := h.placed b hb.1 hb.2.1 hb.2.2 hbr
  exact h.directory he

/-! ## References do not matter -/

/-- Two trees that differ in their references. -/
theorem TreeInv.references (references : Ino → Nat) : TreeInv { t with references := references } :=
  ⟨⟨h.bound, h.dead, h.plain, h.names, h.target⟩, h.child, h.single, h.placed, h.dirs, h.removed, h.files, h.root,
    h.reaches⟩

theorem TreeInv.hold (i : Ino) : TreeInv (t.hold i) := h.references _

/-! ## Inodes come and go -/

/-- An inode without links goes. -/
theorem TreeInv.destroy (hlive : t.live i = true) (hlink : t.nlink i = 0) : TreeInv (t.inodeDestroy i) := by
  have hroot : i ≠ t.root := fun hi => h.root.2.2.1 (by rw [← hi]; exact hlink)
  have hother : ∀ j, (t.inodeDestroy i).live j = true → t.live j = true ∧ j ≠ i := by
    intro j hj
    have hj : update t.live i false j = true := hj
    rw [update_apply] at hj
    split_ifs at hj with hji
    exact ⟨hj, hji⟩
  refine ⟨⟨fun j hj => h.bound j (hother j hj).1, fun d hd => ?_, h.plain, h.names, fun d e he => ?_⟩, h.child,
    h.single, fun j hj => h.placed j (hother j hj).1, fun d hd => h.dirs d (hother d hd).1,
    fun d hd => h.removed d (hother d hd).1, fun j hj => h.files j (hother j hj).1, ?_,
    fun j hj => h.reaches j (hother j hj).1⟩
  · have hd : update t.live i false d = false := hd
    by_cases hdi : d = i
    · rw [hdi]
      by_cases htype : t.type i = .directory
      · exact h.removed i hlive htype hlink
      · exact h.plain i htype
    · rw [update_of_ne hdi] at hd
      exact h.dead d hd
  · show update t.live i false e.inode = true
    rw [update_of_ne (h.unnamed hlive hlink he)]
    exact h.target d e he
  · show update t.live i false t.root = true ∧ _
    rw [update_of_ne hroot.symm]
    exact h.root

theorem TreeInv.maybeDestroy (hlive : t.live i = true) : TreeInv (t.inodeMaybeDestroy i) := by
  unfold inodeMaybeDestroy
  split_ifs with hzero
  · exact h.destroy hlive hzero.1
  · exact h

/-- A new inode, without links. -/
theorem TreeInv.alloc (type : InodeType) : TreeInv (t.inodeAlloc type) := by
  have hfresh := h.fresh
  have hne : ∀ d, ∀ e ∈ t.entries d, e.inode ≠ t.nextInode := fun d e he => h.unnamed_dead hfresh he
  have hroot : t.root ≠ t.nextInode := fun hr => by
    have := h.root.1
    rw [hr, hfresh] at this
    cases this
  have hentries : (t.inodeAlloc type).entries = t.entries := by
    show update t.entries t.nextInode [] = t.entries
    rw [← h.dead t.nextInode hfresh]
    exact update_eq_self _ _
  -- an old inode has what it had
  have hold : ∀ j, j ≠ t.nextInode → (t.inodeAlloc type).live j = t.live j ∧ (t.inodeAlloc type).type j = t.type j ∧
      (t.inodeAlloc type).nlink j = t.nlink j ∧ (t.inodeAlloc type).parent j = t.parent j := fun j hj =>
    ⟨update_of_ne hj _ _, update_of_ne hj _ _, update_of_ne hj _ _,
      update_of_ne hj _ _⟩
  have hnlink : (t.inodeAlloc type).nlink t.nextInode = 0 := update_self _ _ _
  have hsub : ∀ d, (t.inodeAlloc type).subdirectories d = t.subdirectories d := by
    intro d
    unfold subdirectories
    rw [hentries]
    refine countP_congr fun e he => ?_
    rw [(hold _ (hne d e he)).2.1]
  have hlinked : ∀ j, (t.inodeAlloc type).Linked j → t.Linked j ∧ j ≠ t.nextInode := by
    intro j hj
    have hjn : j ≠ t.nextInode := fun hjn => hj.2.2 (by rw [hjn]; exact hnlink)
    obtain ⟨hlive', htype', hnlink', -⟩ := hold j hjn
    rw [Tree.Linked, hlive', htype', hnlink'] at hj
    exact ⟨hj, hjn⟩
  have hnil : ∀ d, (d ≠ t.nextInode → t.entries d = []) → (t.inodeAlloc type).entries d = [] := by
    intro d hd
    rw [hentries]
    by_cases hdn : d = t.nextInode
    · rw [hdn]
      exact h.dead _ hfresh
    · exact hd hdn
  refine ⟨⟨fun j hj => ?_, fun d hd => hnil d fun hdn => h.dead d ?_, fun d hd => hnil d fun hdn => h.plain d ?_,
    fun d => ?_, fun d e he => ?_⟩, fun d e he htype => ?_, fun d e he e' he' heq htype => ?_,
    fun j hj htype hlink hjr => ?_, fun d hd htype hlink => ?_, fun d hd htype hlink => hnil d fun hdn => ?_,
    fun j hj htype => ?_, ?_, fun j hj htype hlink => ?_⟩
  · by_cases hjn : j = t.nextInode
    · rw [hjn]
      exact lt_succ_self _
    · rw [(hold j hjn).1] at hj
      exact lt_succ_of_lt (h.bound j hj)
  · rw [← (hold d hdn).1]
    exact hd
  · rw [← (hold d hdn).2.1]
    exact hd
  · rw [hentries]
    exact h.names d
  · rw [hentries] at he
    rw [(hold _ (hne d e he)).1]
    exact h.target d e he
  · rw [hentries] at he
    obtain ⟨-, htype', hnlink', hparent'⟩ := hold _ (hne d e he)
    rw [htype'] at htype
    rw [hparent', hnlink']
    exact h.child d e he htype
  · rw [hentries] at he he'
    rw [(hold _ (hne d e he)).2.1] at htype
    exact h.single d e he e' he' heq htype
  · obtain ⟨hj, hjn⟩ := hlinked j ⟨hj, htype, hlink⟩
    rw [hentries, (hold j hjn).2.2.2]
    exact h.placed j hj.1 hj.2.1 hj.2.2 hjr
  · obtain ⟨hd, hdn⟩ := hlinked d ⟨hd, htype, hlink⟩
    rw [(hold d hdn).2.2.1, hsub]
    exact h.dirs d hd.1 hd.2.1 hd.2.2
  · obtain ⟨hlive', htype', hnlink', -⟩ := hold d hdn
    rw [hlive'] at hd
    rw [htype'] at htype
    rw [hnlink'] at hlink
    exact h.removed d hd htype hlink
  · have hnaming : (t.inodeAlloc type).naming j = t.naming j := by
      unfold naming
      rw [hentries]
    rw [hnaming]
    by_cases hjn : j = t.nextInode
    · rw [hjn, hnlink]
      refine weighs_none fun d => countP_eq_zero.mpr fun e he hname => ?_
      exact hne d e he (of_decide_eq_true hname)
    obtain ⟨hlive', htype', hnlink', -⟩ := hold j hjn
    rw [hlive'] at hj
    rw [htype'] at htype
    rw [hnlink']
    exact h.files j hj htype
  · obtain ⟨hlive', htype', hnlink', hparent'⟩ := hold t.root hroot
    show (t.inodeAlloc type).live t.root = true ∧ (t.inodeAlloc type).type t.root = _ ∧
      (t.inodeAlloc type).nlink t.root ≠ 0 ∧ (t.inodeAlloc type).parent t.root = t.root
    rw [hlive', htype', hnlink', hparent']
    exact h.root
  · refine h.reaches_of_linked (fun b hb => (hold b fun hbn => ?_).2.2.2) (hlinked j ⟨hj, htype, hlink⟩).1
    have hlive := hb.1
    rw [hbn, hfresh] at hlive
    cases hlive

end

/-! ## A list without one entry -/

section Detach

variable {l : List Entry} {x : Entry}

variable (hl : Keyed Entry.name l) (he : e ∈ l)
include hl he

theorem detach_perm : l.Perm (e :: l.eraseP fun e' => e'.name = e.name) := by
  obtain ⟨a, l₁, l₂, -, ha, hsplit, herase⟩ := exists_of_eraseP he (p := fun e' => e'.name = e.name) (by simp)
  have hae : a = e := by
    refine hl.inj ?_ he (of_decide_eq_true ha)
    rw [hsplit]
    exact mem_append_right _ mem_cons_self
  rw [herase, hsplit, hae]
  exact perm_middle

theorem mem_detach : x ∈ l.eraseP (fun e' => e'.name = e.name) ↔ x ∈ l ∧ x ≠ e := by
  have hperm := detach_perm hl he
  have hnodup := hperm.nodup_iff.mp hl.nodup
  rw [hperm.mem_iff, mem_cons]
  constructor
  · intro hx
    refine ⟨.inr hx, fun hxe => ?_⟩
    rw [hxe] at hx
    exact (nodup_cons.mp hnodup).1 hx
  · rintro ⟨hx | hx, hne⟩
    · exact absurd hx hne
    · exact hx

theorem countP_detach (p : Entry → Bool) :
    l.countP p = (l.eraseP fun e' => e'.name = e.name).countP p + if p e then 1 else 0 := by
  rw [(detach_perm hl he).countP_eq, countP_cons]

end Detach

theorem findEntry_some (hf : t.findEntry d name = some e) : e ∈ t.entries d ∧ e.name = name :=
  ⟨mem_of_find?_eq_some hf, by simpa using List.find?_some hf⟩

theorem findEntry_none (hf : t.findEntry d name = none) : ∀ e ∈ t.entries d, e.name ≠ name := fun e he hname =>
  List.find?_eq_none.mp hf e he (decide_eq_true hname)

/-! ## Lists that change -/

theorem Listed.cons (name : Name) (h : Listed t) (hd : t.live d = true ∧ t.type d = .directory) (hi : t.live i = true)
    (hname : ∀ e ∈ t.entries d, e.name ≠ name) : Listed (t.setEntries d (⟨name, i⟩ :: t.entries d)) := by
  have hother : ∀ c, c ≠ d → (t.setEntries d (⟨name, i⟩ :: t.entries d)).entries c = t.entries c :=
    fun c hc => update_of_ne hc _ _
  have hself : (t.setEntries d (⟨name, i⟩ :: t.entries d)).entries d = ⟨name, i⟩ :: t.entries d :=
    update_self _ _ _
  refine ⟨h.bound, fun c hc => ?_, fun c hc => ?_, fun c => ?_, fun c x hx => ?_⟩
  · have hcd : c ≠ d := fun hcd => by
      have hc : t.live c = false := hc
      rw [hcd, hd.1] at hc
      cases hc
    rw [hother c hcd]
    exact h.dead c hc
  · have hcd : c ≠ d := fun hcd => hc (by rw [hcd]; exact hd.2)
    rw [hother c hcd]
    exact h.plain c hc
  · by_cases hcd : c = d
    · rw [hcd, hself]
      exact keyed_cons.mpr ⟨hname, h.names d⟩
    · rw [hother c hcd]
      exact h.names c
  · by_cases hcd : c = d
    · rw [hcd, hself] at hx
      rcases mem_cons.mp hx with hx | hx
      · rw [hx]
        exact hi
      · exact h.target d x hx
    · rw [hother c hcd] at hx
      exact h.target c x hx

theorem Listed.detach (h : Listed t) (d : Ino) (e : Entry) : Listed (t.detachEntry d e) := by
  have hsub : ∀ c, ((t.detachEntry d e).entries c).Sublist (t.entries c) := by
    intro c
    show (update t.entries d _ c).Sublist (t.entries c)
    by_cases hcd : c = d
    · rw [hcd, update_self]
      exact eraseP_sublist
    · rw [update_of_ne hcd]
  refine ⟨h.bound, fun c hc => ?_, fun c hc => ?_, fun c => (h.names c).sublist (hsub c), fun c x hx => ?_⟩
  · have hnil := hsub c
    rw [h.dead c hc] at hnil
    exact sublist_nil.mp hnil
  · have hnil := hsub c
    rw [h.plain c hc] at hnil
    exact sublist_nil.mp hnil
  · exact h.target c x ((hsub c).subset hx)

/-! ## Changes that no directory sees, and changes that one directory sees -/

/-- The same entries but for `e`, which names no directory. -/
theorem TreeInv.of_file (h : TreeInv t) (hd : t.Linked d) (htype : t.type e.inode ≠ .directory) {l : List Entry}
    {n : Nat} (hlisted : Listed (t.setEntries d l))
    (hcount : ∀ p : Entry → Bool, p e = false → l.countP p = (t.entries d).countP p)
    (hn : l.countP (fun x => x.inode = e.inode) + t.nlink e.inode =
      (t.entries d).countP (fun x => x.inode = e.inode) + n) :
    TreeInv ((t.setEntries d l).setNlink e.inode n) := by
  set t' := (t.setEntries d l).setNlink e.inode n with ht'
  have hself : t'.entries d = l := update_self _ _ _
  have hother : ∀ c, c ≠ d → t'.entries c = t.entries c := fun c hc => update_of_ne hc _ _
  have hnlink : ∀ j, j ≠ e.inode → t'.nlink j = t.nlink j := fun j hj => update_of_ne hj _ _
  have hdir : ∀ j, t.type j = .directory → t'.nlink j = t.nlink j := fun j hj =>
    hnlink j fun hji => htype (by rw [← hji]; exact hj)
  have hcounts : ∀ c (p : Entry → Bool), p e = false → (t'.entries c).countP p = (t.entries c).countP p := by
    intro c p hp
    by_cases hc : c = d
    · rw [hc, hself, hcount p hp]
    · rw [hother c hc]
  have hmem : ∀ c x, t.type x.inode = .directory → (x ∈ t'.entries c ↔ x ∈ t.entries c) := by
    intro c x hx
    rw [← count_pos_iff, ← count_pos_iff]
    refine iff_of_eq (congrArg (0 < ·) (hcounts c (· == x) (beq_false_of_ne fun hex => htype ?_)))
    rw [hex]
    exact hx
  refine ⟨⟨hlisted.bound, hlisted.dead, hlisted.plain, hlisted.names, hlisted.target⟩, fun c x hx hxtype => ?_,
    fun c x hx x' hx' heq hxtype => ?_, fun j hj hjtype hjlink hjr => ?_, fun c hc hctype hclink => ?_,
    fun c hc hctype hclink => ?_, fun j hj hjtype => ?_, ?_, fun j hj hjtype hjlink => ?_⟩
  · rw [hdir _ hxtype]
    exact h.child c x ((hmem c x hxtype).mp hx) hxtype
  · exact h.single c x ((hmem c x hxtype).mp hx) x' ((hmem c x' (by rw [heq]; exact hxtype)).mp hx') heq hxtype
  · rw [hdir j hjtype] at hjlink
    obtain ⟨x, hx, hxj⟩ := h.placed j hj hjtype hjlink hjr
    exact ⟨x, (hmem _ x (by rw [hxj]; exact hjtype)).mpr hx, hxj⟩
  · rw [hdir c hctype] at hclink ⊢
    rw [h.dirs c hc hctype hclink]
    exact congrArg _ (hcounts c _ (decide_eq_false htype)).symm
  · rw [hdir c hctype] at hclink
    rw [hother c fun hcd => by rw [hcd] at hclink; exact hd.2.2 hclink]
    exact h.removed c hc hctype hclink
  · by_cases hji : j = e.inode
    · rw [hji] at hj hjtype ⊢
      refine (h.files _ hj hjtype).change (fun c hc => by unfold naming; rw [hother c hc]) ?_
      unfold naming
      rw [hself, show t'.nlink e.inode = n from update_self _ _ _]
      omega
    · rw [hnlink j hji]
      exact (h.files j hj hjtype).congr fun c => hcounts c _ (decide_eq_false (Ne.symm hji))
  · show t.live t.root = true ∧ t.type t.root = _ ∧ t'.nlink t.root ≠ 0 ∧ t.parent t.root = t.root
    rw [hdir _ h.root.2.1]
    exact h.root
  · rw [hdir j hjtype] at hjlink
    exact h.reaches j hj hjtype hjlink

section Directory

variable {entries : Ino → List Entry} {nlink : Ino → Nat} {parent : Ino → Ino}

/-- The same entries but for those that name the directory `i`: none, or `new` in its new parent. -/
theorem TreeInv.of_directory (h : TreeInv t) (new : Entry) (hi : t.type i = .directory) (hir : i ≠ t.root)
    (hlisted : Listed { t with entries := entries })
    (hcount : ∀ c (p : Entry → Bool), (∀ x, x.inode = i → p x = false) → (entries c).countP p = (t.entries c).countP p)
    (hnamed : ∀ c, ∀ x ∈ entries c, x.inode = i → nlink i ≠ 0 ∧ c = parent i ∧ x = new)
    (hplaced : nlink i ≠ 0 → nlink (parent i) ≠ 0 ∧ new ∈ entries (parent i) ∧ new.inode = i)
    (hempty : nlink i = 0 → entries i = []) (hparent : ∀ j, j ≠ i → parent j = t.parent j)
    (hzero : ∀ j, j ≠ i → (nlink j = 0 ↔ t.nlink j = 0)) (hlinks : ∀ j, t.type j ≠ .directory → nlink j = t.nlink j)
    (hdirs : ∀ c, t.live c = true → t.type c = .directory → nlink c ≠ 0 →
      nlink c = 2 + (entries c).countP fun e => t.type e.inode = .directory)
    (hreaches : ∀ j, t.live j = true → t.type j = .directory → nlink j ≠ 0 → Reaches parent t.root j) :
    TreeInv { t with entries := entries, nlink := nlink, parent := parent } := by
  have hmem : ∀ c x, x.inode ≠ i → (x ∈ entries c ↔ x ∈ t.entries c) := by
    intro c x hx
    rw [← count_pos_iff, ← count_pos_iff]
    refine iff_of_eq (congrArg (0 < ·) (hcount c (· == x) fun y hy => beq_false_of_ne fun hyx => hx ?_))
    rw [← hyx]
    exact hy
  refine ⟨⟨hlisted.bound, hlisted.dead, hlisted.plain, hlisted.names, hlisted.target⟩, fun c x hx hxtype => ?_,
    fun c x hx x' hx' heq hxtype => ?_, fun j hj hjtype hjlink hjr => ?_, hdirs, fun c hc hctype hclink => ?_,
    fun j hj hjtype => ?_, ?_, hreaches⟩
  · by_cases hxi : x.inode = i
    · obtain ⟨hlink, hc, -⟩ := hnamed c x hx hxi
      rw [hxi]
      exact ⟨hc.symm, hlink, hir⟩
    · obtain ⟨hp, hl, hr⟩ := h.child c x ((hmem c x hxi).mp hx) hxtype
      exact ⟨(hparent _ hxi).trans hp, fun hz => hl ((hzero _ hxi).mp hz), hr⟩
  · by_cases hxi : x.inode = i
    · rw [(hnamed c x hx hxi).2.2, (hnamed c x' hx' (heq.trans hxi)).2.2]
    · exact h.single c x ((hmem c x hxi).mp hx) x' ((hmem c x' (by rw [heq]; exact hxi)).mp hx') heq hxtype
  · by_cases hji : j = i
    · rw [hji] at hjlink ⊢
      exact ⟨new, (hplaced hjlink).2⟩
    obtain ⟨x, hx, hxj⟩ := h.placed j hj hjtype (fun hz => hjlink ((hzero j hji).mpr hz)) hjr
    refine ⟨x, ?_, hxj⟩
    show x ∈ entries (parent j)
    rw [hparent j hji, hmem _ x (by rw [hxj]; exact hji)]
    exact hx
  · by_cases hci : c = i
    · rw [hci] at hclink ⊢
      exact hempty hclink
    refine eq_nil_iff_forall_not_mem.mpr fun x hx => ?_
    by_cases hxi : x.inode = i
    · obtain ⟨hlink, hcp, -⟩ := hnamed c x hx hxi
      exact (hplaced hlink).1 (by rw [← hcp]; exact hclink)
    · have hx := (hmem c x hxi).mp hx
      rw [h.removed c hc hctype ((hzero c hci).mp hclink)] at hx
      cases hx
  · show Weighs _ (nlink j)
    rw [hlinks j hjtype]
    refine (h.files j hj hjtype).congr fun c => hcount c _ fun x hx => decide_eq_false fun hxj => hjtype ?_
    rw [← hxj, hx]
    exact hi
  · exact ⟨h.root.1, h.root.2.1, fun hz => h.root.2.2.1 ((hzero _ hir.symm).mp hz),
      (hparent _ hir.symm).trans h.root.2.2.2⟩

end Directory

/-! ## Links come -/

/-- A link to an inode that is not a directory. -/
theorem TreeInv.linkFile (h : TreeInv t) (hi : t.live i = true) (htype : t.type i ≠ .directory)
    (hd : t.Linked d) (hname : ∀ e ∈ t.entries d, e.name ≠ name) :
    TreeInv ((t.setEntries d (⟨name, i⟩ :: t.entries d)).setNlink i (t.nlink i + 1)) := by
  refine h.of_file (e := ⟨name, i⟩) hd htype (h.toListed.cons name ⟨hd.1, hd.2.1⟩ hi hname) (fun p hp => ?_) ?_
  · rw [countP_cons_of_neg (by simp [hp])]
  · rw [countP_cons_of_pos (by simp), add_right_comm, add_assoc]

/-- A new directory gets its entry. -/
theorem TreeInv.linkDir (name : Name) (h : TreeInv t) (hi : t.live i = true) (htype : t.type i = .directory)
    (hlink : t.nlink i = 0) (hd : t.Linked d) (hname : ∀ e ∈ t.entries d, e.name ≠ name) :
    TreeInv { (t.setEntries d (⟨name, i⟩ :: t.entries d)) with
      nlink := update (update t.nlink i 2) d (t.nlink d + 1)
      parent := update t.parent i d } := by
  have hlisted := h.toListed.cons name ⟨hd.1, hd.2.1⟩ hi hname
  have hne : i ≠ d := fun hid => hd.2.2 (by rw [← hid]; exact hlink)
  have hroot : i ≠ t.root := fun hir => h.root.2.2.1 (by rw [← hir]; exact hlink)
  have hnlinki : update (update t.nlink i 2) d (t.nlink d + 1) i = 2 := by rw [update_of_ne hne, update_self]
  have hother : ∀ c, c ≠ d → update t.entries d (⟨name, i⟩ :: t.entries d) c = t.entries c :=
    fun c hc => update_of_ne hc _ _
  -- every other inode has as many links as before, or the directory one more
  have hzero : ∀ j, j ≠ i → (update (update t.nlink i 2) d (t.nlink d + 1) j = 0 ↔ t.nlink j = 0) := by
    intro j hji
    by_cases hjd : j = d
    · rw [hjd, update_self]
      exact iff_of_false (succ_ne_zero _) hd.2.2
    · rw [update_of_ne hjd, update_of_ne hji]
  show TreeInv { t with
    entries := update t.entries d (⟨name, i⟩ :: t.entries d)
    nlink := update (update t.nlink i 2) d (t.nlink d + 1)
    parent := update t.parent i d }
  refine h.of_directory ⟨name, i⟩ htype hroot hlisted (fun c p hp => ?_) (fun c x hx hxi => ?_)
    (fun _ => ?_) (fun hz => ?_) (fun j hj => update_of_ne hj _ _) hzero (fun j hj => ?_)
    (fun c hc hctype hclink => ?_) fun j hj hjtype hjlink => ?_
  · by_cases hc : c = d
    · rw [hc]
      simp [hp ⟨name, i⟩ rfl]
    · rw [hother c hc]
  · rw [hnlinki, update_self]
    by_cases hc : c = d
    · rw [hc, update_self] at hx
      rcases mem_cons.mp hx with hx | hx
      · exact ⟨by decide, hc, hx⟩
      · exact absurd hxi (h.unnamed hi hlink hx)
    · rw [hother c hc] at hx
      exact absurd hxi (h.unnamed hi hlink hx)
  · simp
  · rw [hnlinki] at hz
    cases hz
  · rw [update_of_ne fun hjd => hj (by rw [hjd]; exact hd.2.1), update_of_ne fun hji => hj (by rw [hji]; exact htype)]
  · by_cases hci : c = i
    · rw [hci, hnlinki, hother i hne, h.removed i hi htype hlink]
      rfl
    have hc' : t.nlink c = 2 + t.subdirectories c := h.dirs c hc hctype fun hz => hclink ((hzero c hci).mpr hz)
    unfold subdirectories at hc'
    by_cases hcd : c = d
    · rw [hcd] at hc' ⊢
      rw [update_self, update_self, countP_cons_of_pos (by simpa using htype), hc', add_assoc]
    · rw [update_of_ne hcd, update_of_ne hci, hother c hcd]
      exact hc'
  · -- the chain of an old directory does not meet the new one, which had no links
    have hreach : ∀ j, t.Linked j → Reaches (update t.parent i d) t.root j := fun j => h.reaches_of_linked
      fun b hb => update_of_ne (fun hbi => hb.2.2 (by rw [hbi]; exact hlink)) _ _
    by_cases hji : j = i
    · rw [hji]
      refine .up ?_
      rw [update_self]
      exact hreach d hd
    · exact hreach j ⟨hj, hjtype, fun hz => hjlink ((hzero j hji).mpr hz)⟩

/-! ## Links go -/

section
variable (h : TreeInv t)
include h

section
variable (he : e ∈ t.entries d)
include he

/-- The entries after one of them has gone. -/
theorem entries_detach (c : Ino) {x : Entry} :
    x ∈ (t.detachEntry d e).entries c ↔ x ∈ t.entries c ∧ ¬ (c = d ∧ x = e) := by
  show x ∈ update t.entries d _ c ↔ _
  by_cases hcd : c = d
  · rw [hcd, update_self, mem_detach (h.names d) he]
    simp
  · rw [update_of_ne hcd]
    simp [hcd]

/-- How many of them there are. -/
theorem countP_entries_detach {p : Entry → Bool} :
    (t.entries d).countP p = ((t.detachEntry d e).entries d).countP p + if p e then 1 else 0 := by
  show _ = (update t.entries d _ d).countP p + _
  rw [update_self]
  exact countP_detach (h.names d) he p

/-- An entry goes that does not name a directory. -/
theorem TreeInv.unlinkFile (htype : t.type e.inode ≠ .directory) :
    TreeInv ((t.detachEntry d e).setNlink e.inode (t.nlink e.inode - 1)) := by
  have hcount := countP_detach (h.names d) he
  refine h.of_file (h.directory he) htype (h.toListed.detach d e) (fun p hp => ?_) ?_
  · rw [hcount, if_neg (by simp [hp]), add_zero]
  · have hle := (h.files _ (h.target d e he) htype).le d
    unfold naming at hle
    rw [hcount, if_pos (by simp)] at hle ⊢
    omega

/-- No other entry names the directory that `e` names. -/
theorem TreeInv.unnamed_else (htype : t.type e.inode = .directory) {c : Ino} {x : Entry}
    (hx : x ∈ (t.detachEntry d e).entries c) : x.inode ≠ e.inode := by
  obtain ⟨hx, hxe⟩ := (entries_detach h he c).mp hx
  intro hxi
  have hcd : c = d := by
    rw [← (h.child c x hx (by rw [hxi]; exact htype)).1, hxi]
    exact (h.child d e he htype).1
  rw [hcd] at hx
  exact hxe ⟨hcd, h.single d e he x hx hxi htype⟩

/-- What is counted after the entry has gone. -/
theorem countP_detachEntry (c : Ino) (p : Entry → Bool) :
    (t.entries c).countP p = ((t.detachEntry d e).entries c).countP p + if c = d ∧ p e then 1 else 0 := by
  by_cases hcd : c = d
  · rw [hcd, countP_entries_detach h he]
    simp
  · rw [if_neg fun hc => hcd hc.1, add_zero, show (t.detachEntry d e).entries c = t.entries c from
      update_of_ne hcd _ _]

/-- The entry of an empty directory goes. -/
theorem TreeInv.unlinkDir (htype : t.type e.inode = .directory) (hempty : t.entries e.inode = []) :
    TreeInv (((t.detachEntry d e).setNlink d (t.nlink d - 1)).setNlink e.inode 0) := by
  have hd := h.directory he
  obtain ⟨hparent, hlinked, hnroot⟩ := h.child d e he htype
  have hne : d ≠ e.inode := fun hde => by
    rw [hde, hempty] at he
    cases he
  have hcount := countP_detachEntry h he
  set nlink := update (update t.nlink d (t.nlink d - 1)) e.inode 0 with hn
  have hnlinki : nlink e.inode = 0 := update_self _ _ _
  have hnlink : ∀ j, j ≠ e.inode → nlink j = t.nlink j - if j = d then 1 else 0 := fun j hji => by
    rw [hn, update_of_ne hji, update_apply]
    split <;> simp_all
  -- a directory has two links and one for each of its subdirectories
  have hdirs : ∀ c, c ≠ e.inode → t.Linked c → nlink c =
      2 + ((t.detachEntry d e).entries c).countP fun e => t.type e.inode = .directory := fun c hci hc => by
    have hold : t.nlink c = 2 + (t.entries c).countP _ := h.dirs c hc.1 hc.2.1 hc.2.2
    rw [hcount c, decide_eq_true htype] at hold
    rw [hnlink c hci, hold]
    split <;> simp_all
  have hzero : ∀ j, j ≠ e.inode → (nlink j = 0 ↔ t.nlink j = 0) := fun j hji => by
    by_cases hjd : j = d
    · have := hdirs j hji (hjd ▸ hd)
      rw [hjd] at this ⊢
      exact iff_of_false (by omega) hd.2.2
    · rw [hnlink j hji, if_neg hjd, Nat.sub_zero]
  have hlinked : ∀ {j}, nlink j ≠ 0 → t.nlink j ≠ 0 ∧ j ≠ e.inode := fun {j} hj => by
    have hji : j ≠ e.inode := fun hji => hj (by rw [hji]; exact hnlinki)
    exact ⟨fun hz => hj ((hzero j hji).mpr hz), hji⟩
  show TreeInv { t with entries := (t.detachEntry d e).entries, nlink := nlink, parent := t.parent }
  refine h.of_directory e htype hnroot (h.toListed.detach d e) (fun c p hp => ?_)
    (fun c x hx hxi => absurd hxi (h.unnamed_else he htype hx)) (fun hz => absurd hnlinki hz) (fun _ => ?_)
    (fun j _ => rfl) hzero (fun j hj => ?_)
    (fun c hc hctype hclink => hdirs c (hlinked hclink).2 ⟨hc, hctype, (hlinked hclink).1⟩)
    fun j hj hjtype hjlink => h.reaches j hj hjtype (hlinked hjlink).1
  · rw [hcount c, hp e rfl]
    simp
  · exact (update_of_ne hne.symm _ _).trans hempty
  · rw [hnlink j fun hji => hj (by rw [hji]; exact htype), if_neg fun hjd => hj (by rw [hjd]; exact hd.2.1),
      Nat.sub_zero]

/-- `tmpfs_remove_entry_locked` of a file or of an empty directory. -/
theorem TreeInv.removeEntry (hempty : t.type e.inode = .directory → t.entries e.inode = []) :
    TreeInv (t.removeEntry d e) := by
  unfold Tree.removeEntry
  have hlive := h.target d e he
  by_cases htype : t.type e.inode = .directory
  · have hgone := h.unlinkDir he htype (hempty htype)
    simp only [show (t.detachEntry d e).type e.inode = .directory from htype, if_true]
    exact hgone.maybeDestroy hlive
  · have hgone := h.unlinkFile he htype
    simp only [show ¬ (t.detachEntry d e).type e.inode = .directory from htype, if_false]
    exact hgone.maybeDestroy hlive

end

end

end Caffeinix.Tmpfs
