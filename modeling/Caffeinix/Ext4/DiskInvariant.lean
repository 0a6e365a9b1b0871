import Caffeinix.Ext4.Disk

/-!
# `Ext4.DiskInvariant` — the operations of lwext4 keep a volume in order

Names are unique in their directories, directories have one name, and the link count of a file is the number of
its names. Each change of entries keeps this, and so does each operation.
-/

namespace Caffeinix.Ext4

open List NameTree Disk
open Function (update update_of_ne update_self)

variable {k k' : Disk} {path old new : Path} {c d i od nd x : Ino} {n : Name} {e a : Entry Name Ino}
  {fault : Option Errno}

/-! ## Names of an inode -/

variable {t : Ino → List (Entry Name Ino)} {kind : Kind} {numbers : List Ino} {p q : Path}

section
variable {m : Nat} (hw : Weighs (fun c => (t c).countP fun a => a.target = i) m)
include m hw

/-- A name comes. -/
theorem weighs_add (d : Ino) (e : Entry Name Ino) :
    Weighs (fun c => (add t d e c).countP fun a => a.target = i) (m + if e.target = i then 1 else 0) := by
  refine hw.change (fun c hc => by rw [add_of_ne hc]) ?_
  rw [add_self, countP_append, countP_singleton]
  simp only [decide_eq_true_eq]
  omega

/-- A name goes. -/
theorem weighs_remove (he : e ∈ t d) :
    Weighs (fun c => (remove t d e c).countP fun a => a.target = i) (m - if e.target = i then 1 else 0) := by
  have hle := hw.le d
  have hperm := (perm_cons_erase he).countP_eq fun a => decide (a.target = i)
  rw [countP_cons] at hperm
  simp only [decide_eq_true_eq] at hperm hle
  refine hw.change (fun c hc => by rw [remove_of_ne hc]) ?_
  rw [remove_self]
  omega

end

theorem nil_remove (h : t c = []) : remove t d e c = [] := by
  by_cases hc : c = d
  · rw [hc] at h ⊢
    rw [remove_self, h, erase_nil]
  · rw [remove_of_ne hc]
    exact h

theorem keyed_remove (h : ∀ d, Keyed Entry.name (t d)) (c : Ino) : Keyed Entry.name (remove t d e c) := by
  by_cases hc : c = d
  · rw [hc, remove_self]
    exact (h d).erase e
  · rw [remove_of_ne hc]
    exact h c

section
variable (hk : DiskOk k)
include hk

/-- An inode that an entry names has a link. -/
theorem DiskOk.links_pos (he : e ∈ k.entries d) (hfile : k.directory e.target = false) :
    0 < k.links e.target := by
  have hle := (hk.links e.target (hk.target d e he) hfile).le d
  have hpos : 0 < k.naming e.target d := countP_pos_iff.mpr ⟨e, he, decide_eq_true rfl⟩
  omega

/-- Where a path leads there is an inode. -/
theorem DiskOk.resolve_live (h : k.resolve path = some x) : k.live x = true := by
  by_cases hpath : path = []
  · rw [hpath] at h
    injection h with h
    rw [← h]
    exact hk.rootLive
  · obtain ⟨d, e, hlocate, rfl⟩ := locate_of_resolve hk.plain h hpath
    exact hk.target d e (locate_some hlocate).2.2.2.1

theorem DiskOk.contents (file : Ino → Inode) (mode : Ino → Nat) :
    DiskOk { k with file := file, mode := mode } :=
  ⟨⟨hk.names, hk.plain⟩, hk.dead, hk.target, hk.single, hk.rootLive, hk.rootKind, hk.rootUnnamed, hk.links⟩

/-! ## Changes -/

theorem DiskOk.link (hdir : k.directory d = true) (hlive : k.live d = true)
    (hfree : find exact k.entries d n = none) (hi : k.live i = true) (hfile : k.directory i = false) :
    DiskOk (k.link d n i) where
  names := keyed_add hk.names hfree
  plain := nil_add hk.plain hdir
  dead := nil_add hk.dead hlive
  target := by
    intro c a ha
    rcases mem_add.mp ha with ha | ⟨-, rfl⟩
    · exact hk.target c a ha
    · exact hi
  single := by
    -- the new entry names a file
    intro c a ha c' a' ha' htarget hdirectory
    rcases mem_add.mp ha with ha | ⟨-, rfl⟩
    · rcases mem_add.mp ha' with ha' | ⟨-, rfl⟩
      · exact hk.single c a ha c' a' ha' htarget hdirectory
      · rw [htarget] at hdirectory
        exact absurd hdirectory (Bool.eq_false_iff.mp hfile)
    · exact absurd hdirectory (Bool.eq_false_iff.mp hfile)
  rootLive := hk.rootLive
  rootKind := hk.rootKind
  rootUnnamed := by
    intro c a ha
    rcases mem_add.mp ha with ha | ⟨-, rfl⟩
    · exact hk.rootUnnamed c a ha
    · rintro rfl
      unfold directory at hfile
      rw [hk.rootKind] at hfile
      cases hfile
  links := by
    intro j hj hjfile
    have hw := weighs_add (hk.links j hj hjfile) d ⟨n, i⟩
    rwa [show k.links j + (if i = j then 1 else 0) = update k.links i (k.links i + 1) j by
      by_cases hji : j = i
      · rw [hji, if_pos rfl, update_self]
      · rw [if_neg (Ne.symm hji), update_of_ne hji, Nat.add_zero]] at hw

/-- What removing an entry keeps, whatever becomes of the inode that it named. -/
theorem DiskOk.mem_entries : a ∈ remove k.entries d e c ↔ a ∈ k.entries c ∧ ¬ (c = d ∧ a = e) :=
  mem_remove (hk.names d).nodup

/-- An entry goes, and the link counts follow. -/
theorem DiskOk.remove {links : Ino → Nat}
    (hlinks : ∀ j, k.live j = true → k.directory j = false →
    Weighs (fun c => (remove k.entries d e c).countP fun a => a.target = j) (links j)) :
    DiskOk { k with entries := remove k.entries d e, links := links } where
  names := keyed_remove hk.names
  plain := fun c hc => nil_remove (hk.plain c hc)
  dead := fun c hc => nil_remove (hk.dead c hc)
  target := fun c a ha => hk.target c a (hk.mem_entries.mp ha).1
  single := fun c a ha c' a' ha' => hk.single c a (hk.mem_entries.mp ha).1 c' a' (hk.mem_entries.mp ha').1
  rootLive := hk.rootLive
  rootKind := hk.rootKind
  rootUnnamed := fun c a ha => hk.rootUnnamed c a (hk.mem_entries.mp ha).1
  links := hlinks

theorem DiskOk.unname (he : e ∈ k.entries d) : DiskOk (k.unname d e) := by
  refine hk.remove fun j hj hjfile => ?_
  have hw := weighs_remove (hk.links j hj hjfile) he
  rwa [show k.links j - (if e.target = j then 1 else 0) = update k.links e.target (k.links e.target - 1) j by
    by_cases hji : j = e.target
    · rw [hji, if_pos rfl, update_self]
    · rw [if_neg (Ne.symm hji), update_of_ne hji, Nat.sub_zero]] at hw

/-- An inode without entries and names is freed. -/
theorem DiskOk.free (hempty : k.entries i = []) (hunnamed : ∀ c, ∀ a ∈ k.entries c, a.target ≠ i)
    (hroot : i ≠ root) : DiskOk (k.free i) where
  names := hk.names
  plain := hk.plain
  dead := by
    intro c hc
    by_cases hci : c = i
    · rw [hci]
      exact hempty
    · refine hk.dead c ?_
      rwa [show (k.free i).live c = k.live c from update_of_ne hci _ _] at hc
  target := by
    intro c a ha
    rw [show (k.free i).live a.target = k.live a.target from update_of_ne (hunnamed c a ha) _ _]
    exact hk.target c a ha
  single := hk.single
  rootLive := by
    rw [show (k.free i).live root = k.live root from update_of_ne hroot.symm _ _]
    exact hk.rootLive
  rootKind := hk.rootKind
  rootUnnamed := hk.rootUnnamed
  links := by
    intro j hj hfile
    refine hk.links j ?_ hfile
    by_cases hji : j = i
    · rw [hji, show (k.free i).live i = false from update_self _ _ _] at hj
      cases hj
    · rwa [show (k.free i).live j = k.live j from update_of_ne hji _ _] at hj

theorem DiskOk.unlink (he : e ∈ k.entries d) (hfile : k.directory e.target = false) :
    DiskOk (k.unlink d e) := by
  have hk' := hk.unname he
  unfold Disk.unlink
  split_ifs with hlast
  · refine hk'.free (hk'.plain _ hfile) (fun c a ha htarget => ?_) (hk.rootUnnamed d e he)
    -- the link count is the number of names
    have hw := hk'.links e.target (hk.target d e he) hfile
    rw [show (k.unname d e).links e.target = k.links e.target - 1 from update_self _ _ _, hlast] at hw
    exact absurd (decide_eq_true htarget) (countP_eq_zero.mp (hw.zero c) a ha)
  · exact hk'

/-- An empty directory goes. -/
theorem DiskOk.erase (he : e ∈ k.entries d) (hdir : k.directory e.target = true)
    (hempty : k.entries e.target = []) : DiskOk (k.erase d e) := by
  have hk' : DiskOk { k with entries := NameTree.remove k.entries d e, links := update k.links e.target 0 } := by
    refine hk.remove fun j hj hfile => ?_
    have hne : e.target ≠ j := by
      rintro rfl
      exact absurd hdir (Bool.eq_false_iff.mp hfile)
    have hw := weighs_remove (hk.links j hj hfile) he
    rwa [if_neg hne, Nat.sub_zero, ← update_of_ne hne.symm 0 k.links] at hw
  refine hk'.free (nil_remove hempty) (fun c a ha htarget => ?_) (hk.rootUnnamed d e he)
  obtain ⟨ha, hne⟩ := hk.mem_entries.mp ha
  exact hne (hk.single c a ha d e he htarget (by rw [htarget]; exact hdir))

theorem DiskOk.move (he : e ∈ k.entries od) (hdir : k.directory nd = true) (hlive : k.live nd = true)
    (hfree : find exact k.entries nd n = none) : DiskOk (k.move od e nd n) := by
  have hkeyed := keyed_add (e := ⟨n, e.target⟩) hk.names hfree
  have hmem : ∀ {c a}, a ∈ (k.move od e nd n).entries c →
      (a ∈ k.entries c ∨ c = nd ∧ a = ⟨n, e.target⟩) ∧ ¬ (c = od ∧ a = e) := by
    intro c a ha
    obtain ⟨ha, hne⟩ := (mem_remove (hkeyed od).nodup).mp ha
    exact ⟨mem_add.mp ha, hne⟩
  -- of the names of a directory that moves only the new one is left
  have honly : ∀ {c a}, a ∈ k.entries c → ¬ (c = od ∧ a = e) → k.directory e.target = true → a.target ≠ e.target := by
    intro c a ha hne hdirectory htarget
    exact hne (hk.single c a ha od e he htarget (by rw [htarget]; exact hdirectory))
  refine ⟨⟨keyed_remove hkeyed, fun c hc => nil_remove (nil_add hk.plain hdir c hc)⟩,
    fun c hc => nil_remove (nil_add hk.dead hlive c hc), fun c a ha => ?_,
    fun c a ha c' a' ha' htarget hdirectory => ?_,
    hk.rootLive, hk.rootKind, fun c a ha => ?_, fun j hj hjfile => ?_⟩
  · rcases (hmem ha).1 with ha | ⟨-, rfl⟩
    · exact hk.target c a ha
    · exact hk.target od e he
  · obtain ⟨hin, hne⟩ := hmem ha
    obtain ⟨hin', hne'⟩ := hmem ha'
    rcases hin with hin | ⟨rfl, rfl⟩ <;> rcases hin' with hin' | ⟨rfl, rfl⟩
    · exact hk.single c a hin c' a' hin' htarget hdirectory
    · exact absurd htarget (honly hin hne (by rw [htarget] at hdirectory; exact hdirectory))
    · exact absurd htarget.symm (honly hin' hne' hdirectory)
    · exact ⟨rfl, rfl⟩
  · rcases (hmem ha).1 with ha | ⟨-, rfl⟩
    · exact hk.rootUnnamed c a ha
    · exact hk.rootUnnamed od e he
  · -- a name comes and a name goes
    have hw := weighs_remove (weighs_add (hk.links j hj hjfile) nd ⟨n, e.target⟩) (mem_add.mpr (.inl he))
    rwa [Nat.add_sub_cancel] at hw

/-- An inode that is free is used. -/
theorem DiskOk.make (hdir : k.directory d = true) (hlive : k.live d = true)
    (hfree : find exact k.entries d n = none) (hi : k.live i = false) (kind : Kind) :
    DiskOk (k.make d n i kind) := by
  have hdi : d ≠ i := by
    rintro rfl
    rw [hlive] at hi
    cases hi
  have hri : root ≠ i := by
    rintro rfl
    rw [hk.rootLive] at hi
    cases hi
  have hunnamed : ∀ c, ∀ a ∈ k.entries c, a.target ≠ i := by
    rintro c a ha rfl
    rw [hk.target c a ha] at hi
    cases hi
  have hkind : ∀ {c}, c ≠ i → (k.make d n i kind).directory c = k.directory c := by
    intro c hc
    unfold directory
    rw [show (k.make d n i kind).kind c = k.kind c from update_of_ne hc _ _]
  have hlives : ∀ {c}, c ≠ i → (k.make d n i kind).live c = k.live c := fun hc => update_of_ne hc _ _
  have hnone : add k.entries d ⟨n, i⟩ i = [] := by
    rw [add_of_ne hdi.symm]
    exact hk.dead i hi
  refine ⟨⟨keyed_add hk.names hfree, fun c hc => ?_⟩, fun c hc => ?_, fun c a ha => ?_,
    fun c a ha c' a' ha' htarget hdirectory => ?_, ?_, ?_, fun c a ha => ?_, fun j hj hjfile => ?_⟩
  · by_cases hci : c = i
    · rw [hci]
      exact hnone
    · rw [hkind hci] at hc
      exact nil_add hk.plain hdir c hc
  · by_cases hci : c = i
    · rw [hci]
      exact hnone
    · rw [hlives hci] at hc
      exact nil_add hk.dead hlive c hc
  · rcases mem_add.mp ha with ha | ⟨-, rfl⟩
    · rw [hlives (hunnamed c a ha)]
      exact hk.target c a ha
    · exact update_self _ _ _
  · rcases mem_add.mp ha with hin | ⟨rfl, rfl⟩ <;> rcases mem_add.mp ha' with hin' | ⟨rfl, rfl⟩
    · rw [hkind (hunnamed c a hin)] at hdirectory
      exact hk.single c a hin c' a' hin' htarget hdirectory
    · exact absurd htarget (hunnamed c a hin)
    · exact absurd htarget.symm (hunnamed c' a' hin')
    · exact ⟨rfl, rfl⟩
  · rw [hlives hri]
    exact hk.rootLive
  · rw [show (k.make d n i kind).kind root = k.kind root from update_of_ne hri _ _]
    exact hk.rootKind
  · rcases mem_add.mp ha with ha | ⟨-, rfl⟩
    · exact hk.rootUnnamed c a ha
    · exact hri.symm
  · by_cases hji : j = i
    · -- the only name is the new one
      have hw : Weighs (k.naming i) 0 := weighs_none fun b =>
        countP_eq_zero.mpr fun a ha => by rw [decide_eq_true_eq]; exact hunnamed b a ha
      rw [hji, show (k.make d n i kind).links i = 1 from update_self _ _ _]
      have hw := weighs_add hw d ⟨n, i⟩
      rwa [if_pos rfl] at hw
    rw [hlives hji] at hj
    rw [hkind hji] at hjfile
    rw [show (k.make d n i kind).links j = k.links j from update_of_ne hji _ _]
    have hw := weighs_add (hk.links j hj hjfile) d ⟨n, i⟩
    rwa [if_neg (Ne.symm hji)] at hw

/-! ## Operations -/

theorem DiskOk.parent_live (h : k.parent path = some (d, n)) : k.live d = true :=
  hk.resolve_live (parent_some h).2.1

theorem DiskOk.flink {hardlink : Path} (h : ext4Flink k path hardlink fault = .ok k') : DiskOk k' := by
  obtain ⟨i, d, n, hi, hfile, hparent, hfree, rfl⟩ := flink_ok h
  exact hk.link (parent_some hparent).2.2 (hk.parent_live hparent) hfree (hk.resolve_live hi) hfile

omit hk in
theorem frename_ok (h : ext4Frename k old new fault = .ok k') :
    ∃ od e nd n, k.locate old = some (od, e) ∧ k.parent new = some (nd, n) ∧ find exact k.entries nd n = none ∧
      k' = k.move od e nd n := by
  unfold ext4Frename at h
  split at h
  · cases h
  split at h
  · cases h
  rename_i od e hlocate
  split at h
  · cases h
  rename_i nd n hparent
  split_ifs at h with hfind
  injection h with h
  rw [Option.not_isSome_iff_eq_none] at hfind
  exact ⟨od, e, nd, n, hlocate, hparent, hfind, h.symm⟩

theorem DiskOk.frename (h : ext4Frename k old new fault = .ok k') : DiskOk k' := by
  obtain ⟨od, e, nd, n, hlocate, hparent, hfree, rfl⟩ := frename_ok h
  exact hk.move (locate_some hlocate).2.2.2.1 (parent_some hparent).2.2 (hk.parent_live hparent) hfree

omit hk in
theorem resolve_concat (hq : k.resolve q = some d) (hfind : find exact k.entries d n = some e) :
    k.resolve (q ++ [n]) = some e.target := by
  unfold resolve at hq ⊢
  rw [walk_append, hq, Option.bind_some, walk_singleton, hfind]
  rfl

omit hk in
theorem resolve_make (hq : k.resolve q = some d) (hfind : find exact k.entries d n = none) (i : Ino) (kind : Kind) :
    (k.make d n i kind).resolve (q ++ [n]) = some i := by
  have hwalk : (k.make d n i kind).resolve q = some d := walk_add hq
  exact resolve_concat hwalk (find_add_self hfind (exact_iff.mpr rfl))

omit hk in
/-- What holds after the opening of a path with `O_CREAT`: what each new inode on the way keeps. -/
theorem openCreate_rule {I : Disk → Prop} {goal : Path}
    (hmake : ∀ k q d n i kind, I k → q ++ [n] <+: goal → k.resolve q = some d → k.directory d = true →
      find exact k.entries d n = none → k.live i = false → I (k.make d n i kind))
    (h : I k) (hgoal : q ++ p = goal) (hq : k.resolve q = some d) (hdir : p ≠ [] → k.directory d = true)
    (hopen : k.openCreate kind d p numbers = .ok (k', i)) : I k' := by
  induction p generalizing k d q numbers with
  | nil =>
    injection hopen with hopen
    injection hopen with hk
    rw [← hk]
    exact h
  | cons n p ih =>
    have hgoal' : q ++ [n] ++ p = goal := by rw [append_assoc]; exact hgoal
    unfold openCreate at hopen
    cases hfind : find exact k.entries d n with
    | some =>
      rw [hfind] at hopen
      simp only at hopen
      split_ifs at hopen with hlast hkind hdirectory
      · injection hopen with hopen
        injection hopen with hk
        rw [← hk]
        exact h
      · exact ih h hgoal' (resolve_concat hq hfind) (fun _ => hdirectory) hopen
    | none =>
      rw [hfind] at hopen
      rcases numbers with _ | j
      · cases hopen
      simp only at hopen
      by_cases hlive : k.live j = true
      · rw [if_pos hlive] at hopen
        cases hopen
      rw [if_neg hlive] at hopen
      -- the new inode is where the walk goes on
      refine ih (hmake k q d n j _ h ⟨p, hgoal'⟩ hq (hdir (cons_ne_nil _ _)) hfind
        (Bool.eq_false_iff.mpr hlive)) hgoal' (resolve_make hq hfind j _) (fun hp => ?_) hopen
      unfold directory
      rw [show (k.make d n j _).kind j = _ from update_self _ _ _, if_neg hp]
      rfl

/-- A name that was not there leads to a new inode without entries. -/
theorem openCreate_new (hq : k.resolve q = some d) (hdir : p ≠ [] → k.directory d = true)
    (hnone : walk exact k.entries d p = none) (hopen : k.openCreate kind d p numbers = .ok (k', i)) :
    k'.resolve (q ++ p) = some i ∧ k'.kind i = kind ∧ k'.entries i = [] ∧ k.live i = false := by
  induction p generalizing k d q numbers with
  | nil => cases hnone
  | cons n p ih =>
    have happend : q ++ n :: p = q ++ [n] ++ p := by rw [append_assoc]; rfl
    unfold openCreate at hopen
    cases hfind : find exact k.entries d n with
    | some =>
      rw [hfind] at hopen
      simp only at hopen
      rw [walk_cons hfind] at hnone
      split_ifs at hopen with hlast hkind hdirectory
      · rw [hlast] at hnone
        cases hnone
      · rw [happend]
        exact ih hk (resolve_concat hq hfind) (fun _ => hdirectory) hnone hopen
    | none =>
      rw [hfind] at hopen
      rcases numbers with _ | j
      · cases hopen
      simp only at hopen
      by_cases hlive : k.live j = true
      · rw [if_pos hlive] at hopen
        cases hopen
      rw [if_neg hlive] at hopen
      have hj : k.live j = false := Bool.eq_false_iff.mpr hlive
      have hd := hk.resolve_live hq
      generalize hmade : (if p = [] then kind else Kind.directory) = made at hopen
      have hk' := hk.make (hdir (cons_ne_nil _ _)) hd hfind hj made
      have hq' := resolve_make hq hfind j made
      have hempty : (k.make d n j made).entries j = [] := by
        show add k.entries d ⟨n, j⟩ j = []
        rw [add_of_ne fun hjd => by rw [hjd, hd] at hj; cases hj]
        exact hk.dead j hj
      have hkind : (k.make d n j made).kind j = made := update_self _ _ _
      cases p with
      | nil =>
        injection hopen with hopen
        injection hopen with hk'' hi
        rw [← hk'', ← hi]
        exact ⟨hq', hkind.trans hmade.symm, hempty, hj⟩
      | cons n' p =>
        have hwalk : walk exact (k.make d n j made).entries j (n' :: p) = none := by
          refine walk_cons_none ?_
          unfold find
          rw [hempty]
          rfl
        have hdir' : (k.make d n j made).directory j = true := by
          unfold directory
          rw [hkind, ← hmade]
          rfl
        rw [happend]
        obtain ⟨hresolve, hnew, hnone, hi⟩ := ih hk' hq' (fun _ => hdir') hwalk hopen
        refine ⟨hresolve, hnew, hnone, ?_⟩
        by_cases hij : i = j
        · rw [hij]
          exact hj
        · rwa [show (k.make d n j made).live i = k.live i from update_of_ne hij _ _] at hi

theorem DiskOk.root_directory : k.directory root = true := by
  unfold directory
  rw [hk.rootKind]
  rfl

omit hk in
theorem ext4Create_ok {r : Disk × Ino} (h : ext4Create k kind path numbers fault = .ok r) :
    k.openCreate kind root path numbers = .ok r := by
  unfold ext4Create at h
  cases fault with
  | some => cases h
  | none =>
    split_ifs at h
    exact h

theorem DiskOk.unique (c : Ino) (n : Name) :
    ∀ a ∈ k.entries c, ∀ b ∈ k.entries c, exact a.name n = true → exact b.name n = true → a = b :=
  fun _ ha _ hb han hbn => (hk.names c).inj ha hb ((exact_iff.mp han).trans (exact_iff.mp hbn).symm)

/-- A directory has one path. -/
theorem DiskOk.path_unique (hdir : k.directory d = true) (hold : k.resolve old = some d)
    (hnew : k.resolve new = some d) : old = new := by
  -- along the paths from their ends, as a directory has one name and the root none
  induction old using List.reverseRecOn generalizing d new with
  | nil =>
    injection hold with hold
    by_contra hne
    obtain ⟨c, e, hlocate, htarget⟩ := locate_of_resolve hk.plain hnew fun h => hne h.symm
    exact hk.rootUnnamed c e (locate_some hlocate).2.2.2.1 (htarget.trans hold.symm)
  | append_singleton old n ih =>
    obtain ⟨c, e, hlocate, htarget⟩ := locate_of_resolve hk.plain hold (concat_ne_nil _ _)
    have hne : new ≠ [] := by
      rintro rfl
      injection hnew with hnew
      exact hk.rootUnnamed c e (locate_some hlocate).2.2.2.1 (htarget.trans hnew.symm)
    obtain ⟨c', e', hlocate', htarget'⟩ := locate_of_resolve hk.plain hnew hne
    obtain ⟨hpath, hresolve, hc, hmem, -⟩ := locate_some hlocate
    obtain ⟨hpath', hresolve', -, hmem', -⟩ := locate_some hlocate'
    obtain ⟨rfl, rfl⟩ := hk.single c e hmem c' e' hmem' (htarget.trans htarget'.symm) (by rw [htarget]; exact hdir)
    rw [dropLast_concat] at hpath hresolve
    rw [hpath, hpath', ih hc hresolve hresolve']

end

end Caffeinix.Ext4
