import Caffeinix.Tmpfs.TreeRun

/-!
# `Tmpfs.Scan` — reading a directory of tmpfs (`tmpfs_readdir`, `sys_linux_getdents64`)

A scan reads a directory through one open file, by calls of `getdents64` with buffers of any size. The position
of the file is an index: 0 and 1 stand for `.` and `..`, and `n + 2` for the entry `n` of the list of the
directory. `vfs_next_dirent` holds the position lock of the file and `tmpfs_readdir` the lock of the
superblock, so that one turn of the loop of `getdents64` is one step, and the calls of others on the tmpfs
come between the turns.

New entries go to the head of the list and so move all others by one, and an entry that goes moves those
behind it: the index then stands for another entry. A scan is right as long as the entries before its
position stay where they are.
-/

namespace Caffeinix.Tmpfs

open Nat Option List Runs Tmpfs.Tree
open Function (update update_of_ne update_self)

/-! ## One entry -/

/-- `tmpfs_dirent_type`, with the numbers of `enum vfs_dirent_type`. -/
def tmpfsDirentType : InodeType → Nat
  | .directory => 4
  | .regular => 8
  | .symlink => 10
  | .charDevice => 2
  | .blockDevice => 6
  | .fifo => 1
  | .socket => 12

/-- `struct vfs_dirent`. -/
structure Dirent where
  ino : Ino
  nextOffset : Nat
  type : Nat
  name : List UInt8
deriving DecidableEq

/-- `"."`. -/
def dot : List UInt8 := [46]

/-- `".."`. -/
def dotdot : List UInt8 := [46, 46]

/-- `tmpfs_readdir`: `none` is the result 0, otherwise the new position is `nextOffset`. -/
def tmpfsReaddir (t : Tree) (d : Ino) (position : Nat) : Option Dirent :=
  if position < 2 then
    some ⟨if position = 0 then d else t.parent d, position + 1, tmpfsDirentType .directory,
      if position = 0 then dot else dotdot⟩
  else
    (t.entries d)[position - 2]?.map fun e =>
      ⟨e.inode, position + 1, tmpfsDirentType (t.type e.inode), e.name.bytes⟩

/-- `record_length` of `linux_emit_dirent`. -/
def recordLength (x : Dirent) : Nat := (19 + x.name.length + 1 + 7) / 8 * 8

/-- `struct linux_getdents_context`, with the records that have been copied to the buffer. -/
structure Context where
  length : Nat
  used : Nat
  records : List Dirent
deriving DecidableEq

/-- `linux_emit_dirent`; `copy` is the outcome of `copyout`. -/
def linuxEmitDirent (x : Dirent) (c : Context) (copy : Bool) : Except VfsError Context :=
  if c.length < c.used + recordLength x then .error .nospc
  else if !copy then .error .fault
  else .ok { c with used := c.used + recordLength x, records := c.records ++ [x] }

/-- `vfs_next_dirent` on a directory of tmpfs, which has no `seekdir`: the new position and context, `none` at
    the end. The position is as it was after an error. -/
def vfsNextDirent (t : Tree) (d : Ino) (position : Nat) (c : Context) (copy : Bool) :
    Except VfsError (Option (Nat × Context)) :=
  match tmpfsReaddir t d position with
  | none => .ok none
  | some x =>
    match linuxEmitDirent x c copy with
    | .error e => .error e
    | .ok c => .ok (some (x.nextOffset, c))

/-! ## Scans -/

/-- A tmpfs with an open directory. -/
structure Scan where
  tree : Tree
  position : Nat
  /-- the `getdents64` that is going on -/
  call : Option Context
  /-- what those before it have returned: the records in the buffer, or an error -/
  replies : List (Except VfsError (List Dirent))

/-- The end of `sys_linux_getdents64`; `result` is the error in which the loop has ended. -/
def Scan.finish (s : Scan) (c : Context) (result : Option VfsError) : Scan :=
  let response : Except VfsError (List Dirent) :=
    match result with
    | none => .ok c.records
    | some e => if c.used ≠ 0 then .ok c.records else if e = .nospc then .error .inval else .error e
  { s with call := none, replies := s.replies ++ [response] }

inductive Event where
  /-- a call on the tmpfs, by anyone -/
  | change (c : Call)
  /-- `sys_linux_getdents64` begins, with a buffer of this length -/
  | enter (length : Nat)
  /-- its loop makes a turn or ends -/
  | turn (copy : Bool)
deriving DecidableEq

def Scan.step (d : Ino) (s : Scan) : Event → Scan
  | .change c => { s with tree := s.tree.step c }
  | .enter length =>
    if s.call.isSome then s
    else if length < 24 then { s with replies := s.replies ++ [.error .inval] }
    else { s with call := some ⟨length, 0, []⟩ }
  | .turn copy =>
    match s.call with
    | none => s
    | some c =>
      if c.length - c.used < 24 then s.finish c none
      else
        match vfsNextDirent s.tree d s.position c copy with
        | .error e => s.finish c (some e)
        | .ok none => s.finish c none
        | .ok (some (position, c)) => { s with position := position, call := some c }

/-- The directory has been opened. -/
def Scan.start (t : Tree) : Scan := ⟨t, 0, none, []⟩

/-- All records that the scan has returned, those of the call that is going on included. -/
def Scan.returned (s : Scan) : List Dirent :=
  (s.replies.flatMap fun r => r.toOption.getD []) ++ (s.call.map Context.records).getD []

/-- Once `.` and `..` are returned nothing comes into the directory, and the entries before the position stay. -/
def Undisturbed (d : Ino) (s : Scan) : Event → Prop
  | .change c =>
    s.position < 2 ∨ ((s.tree.step c).entries d).Sublist (s.tree.entries d) ∧
      ((s.tree.step c).entries d).take (s.position - 2) = (s.tree.entries d).take (s.position - 2)
  | _ => True

/-! ## Names are unique

This needs no condition on the calls, other than `TreeInv`. -/

/-- No name is twice in a directory. -/
def Named (t : Tree) : Prop := ∀ d, Keyed Entry.name (t.entries d)

variable {t t' : Tree} {d i : Ino} {e : Entry} {name : Name}

variable {l : List Entry} {c : Context} {x : Dirent} {length : Nat}

section
variable (h : Named t)
include h

theorem Named.setEntries (hl : Keyed Entry.name l) : Named (t.setEntries d l) := by
  intro c
  show Keyed Entry.name (update t.entries d l c)
  by_cases hc : c = d
  · rw [hc, update_self]
    exact hl
  · rw [update_of_ne hc]
    exact h c

theorem Named.alloc (type : InodeType) : Named (t.inodeAlloc type) := by
  intro c
  show Keyed Entry.name (update t.entries t.nextInode [] c)
  by_cases hc : c = t.nextInode
  · rw [hc, update_self]
    exact .nil
  · rw [update_of_ne hc]
    exact h c

theorem Named.detach : Named (t.detachEntry d e) :=
  h.setEntries ((h d).sublist eraseP_sublist)

theorem Named.remove : Named (t.removeEntry d e) := by
  intro c
  rw [removeEntry_entries]
  exact h.detach c

theorem Named.takeBack (d : Ino) (name : Name) : Named (t.takeBack d name) :=
  h.setEntries ((h d).sublist ((tail_sublist _).trans (dropWhile_sublist _)))

theorem Named.cons (hname : ∀ e ∈ t.entries d, e.name ≠ name) :
    Named (t.setEntries d (⟨name, i⟩ :: t.entries d)) :=
  h.setEntries (keyed_cons.mpr ⟨hname, h d⟩)

theorem Named.add {memory : Bool} (hadd : t.addEntry d name i memory = .ok t') : Named t' := by
  unfold addEntry at hadd
  split_ifs at hadd with hfind
  cases hadd
  exact h.cons (findEntry_none (not_isSome_iff_eq_none.mp hfind))

variable (d : Ino) (name : Name)

theorem Named.makeNode (type : InodeType) (memory : Memory) : Named (makeNode t d name type memory).1 := by
  unfold Tmpfs.makeNode
  cases hadd : (t.inodeAlloc type).addEntry d name t.nextInode memory.entry with
  | error =>
    simp only [hadd]
    split_ifs
    · exact h
    · exact h
    · exact h.alloc type
    · exact h.alloc type
  | ok =>
    have hnamed := (h.alloc type).add hadd
    simp only [hadd]
    split_ifs
    · exact h
    · exact h
    · exact h.alloc type
    · exact hnamed
    · exact fun c => hnamed.takeBack d name c

theorem Named.mkdir (inode entry wrap : Bool) : Named (tmpfsMkdir t d name inode entry wrap).1 := by
  unfold tmpfsMkdir
  cases hadd : (t.inodeAlloc .directory).addEntry d name t.nextInode entry with
  | error =>
    simp only [hadd]
    split_ifs
    · exact h
    · exact h
    · exact h.alloc .directory
  | ok =>
    have hnamed := (h.alloc .directory).add hadd
    simp only [hadd]
    split_ifs
    · exact h
    · exact h
    · exact hnamed
    · exact fun c => hnamed.takeBack d name c

theorem Named.moveEntry {od nd : Ino} {newName : Name} (hname : ∀ x ∈ t.entries nd, x.name ≠ newName) :
    Named (t.moveEntry od e nd newName) := by
  have hdetached : ∀ x ∈ (t.detachEntry od e).entries nd, x.name ≠ newName := by
    intro x hx
    have hx : x ∈ update t.entries od ((t.entries od).eraseP fun e' => e'.name = e.name) nd := hx
    by_cases hnd : nd = od
    · rw [hnd, update_self] at hx
      rw [hnd] at hname
      exact hname x (mem_of_mem_eraseP hx)
    · rw [update_of_ne hnd] at hx
      exact hname x hx
  have hnamed := h.detach.cons (i := e.inode) hdetached
  unfold Tree.moveEntry
  simp only
  split_ifs
  · exact hnamed
  · exact hnamed

theorem Named.rename (od : Ino) (oldName : Name) (nd : Ino) {newName : Name} {noreplace : Bool} :
    Named (tmpfsRename t od oldName nd newName noreplace).1 := by
  unfold tmpfsRename
  split
  · exact h
  rename_i old hold
  simp only
  split
  · exact h
  split
  · exact h
  cases (if t.type old.inode = .directory then Chains.meets t.parent old.inode t.nextInode nd
      else some false) with
  | none => exact h
  | some found =>
    cases found with
    | true => exact h
    | false =>
      cases hnew : t.findEntry nd newName with
      | none =>
        simp only [hold]
        exact h.moveEntry (findEntry_none hnew)
      | some new =>
        obtain ⟨hmem, hname⟩ := findEntry_some hnew
        cases (t.removeEntry nd new).findEntry od oldName with
        | none => exact h.remove
        | some =>
          refine h.remove.moveEntry fun x hx hxname => ?_
          -- the entry with the new name has gone
          rw [removeEntry_entries] at hx
          have hx : x ∈ update t.entries nd ((t.entries nd).eraseP _) nd := hx
          rw [update_self, mem_detach (h nd) hmem] at hx
          exact hx.2 ((h nd).inj hx.1 hmem (hxname.trans hname.symm))

theorem Named.step (c : Call) : Named (t.step c) := by
  show Named (if t.Offers c then t.operate c else (t, .refused)).1
  split_ifs
  · cases c with
    | lookup d name memory =>
      show Named (tmpfsLookup t d name memory).1
      unfold tmpfsLookup
      cases t.findEntry d name with
      | none => exact h
      | some => cases memory <;> exact h
    | create d name => exact h.makeNode d name .regular _
    | mkdir d name inode entry wrap => exact h.mkdir d name inode entry wrap
    | symlink d name => exact h.makeNode d name .symlink _
    | mknod d name type inode entry wrap =>
      show Named (tmpfsMknod t d name type inode entry wrap).1
      unfold tmpfsMknod
      split_ifs
      · exact h
      · exact h.makeNode d name type _
    | link i d name entry =>
      show Named (tmpfsLink t i d name entry).1
      unfold tmpfsLink
      split_ifs
      · exact h
      · cases hadd : t.addEntry d name i entry with
        | error => exact h
        | ok t' => exact (show Named t' from h.add hadd)
    | unlink d name =>
      show Named (tmpfsUnlink t d name).1
      unfold tmpfsUnlink
      cases t.findEntry d name with
      | none => exact h
      | some =>
        simp only
        split_ifs
        · exact h
        · exact h.remove
    | rmdir d name =>
      show Named (tmpfsRmdir t d name).1
      unfold tmpfsRmdir
      cases t.findEntry d name with
      | none => exact h
      | some =>
        simp only
        split_ifs
        · exact h
        · exact h
        · exact h.remove
    | rename od oldName nd newName => exact h.rename od oldName nd
    | put i =>
      intro c
      show Keyed Entry.name (({ t with references := _ } : Tree).inodeMaybeDestroy i |>.entries c)
      rw [maybeDestroy_frame.1]
      exact h c
  · exact h

end

theorem mount_named : Named mount := fun _ => .nil

/-- **Lookups are exact** after any calls: the names of a directory are distinct, and `tmpfs_lookup` finds an inode
    under a name exactly if that is an entry of the directory. -/
theorem lookup_exact (l : List Call) (d : Ino) : let t := l.foldl step mount
    ((t.entries d).map Entry.name).Nodup ∧
    ∀ name i, (tmpfsLookup t d name true).2 = .ok (some i) ↔ ⟨name, i⟩ ∈ t.entries d := by
  intro t
  have hnamed : Named t := foldl_invariant (I := Named) (fun _ c (ht : Named _) => ht.step c) mount_named l
  refine ⟨hnamed d, fun name i => ?_⟩
  unfold tmpfsLookup
  cases hfind : t.findEntry d name with
  | none => exact iff_of_false (by simp) fun he => findEntry_none hfind _ he rfl
  | some e =>
    obtain ⟨he, rfl⟩ := findEntry_some hfind
    simp only [if_true, Reply.ok.injEq, Option.some_inj]
    constructor
    · rintro rfl
      exact he
    · intro hi
      exact congrArg Entry.inode ((hnamed d).inj he hi rfl)

/-! ## The scan is right -/

theorem recordLength_pos (x : Dirent) : 24 ≤ recordLength x := by
  unfold recordLength
  omega

/-- What is returned are `.`, `..` and the entries before the position. -/
structure ScanInv (d : Ino) (s : Scan) : Prop where
  named : Named s.tree
  shape : ∃ up rest, s.returned = up ++ rest ∧ up.map Dirent.name = [dot, dotdot].take s.position ∧
    rest.map (fun x => (x.name, x.ino)) =
      ((s.tree.entries d).take (s.position - 2)).map fun e => (e.name.bytes, e.inode)
  /-- a call that is going on has room for a record, or has copied one -/
  call : ∀ c, s.call = some c → 24 ≤ c.length ∧ (c.used = 0 ↔ c.records = [])
  /-- a call that has returned nothing has found the end -/
  ended : .ok [] ∈ s.replies → 2 ≤ s.position ∧ (s.tree.entries d).length ≤ s.position - 2

variable {s : Scan}

theorem start_inv (h : Named t) : ScanInv d (Scan.start t) := by
  refine ⟨h, ⟨[], [], rfl, rfl, rfl⟩, nofun, fun hmem => ?_⟩
  cases hmem

/-- The entries before the position stay. -/
theorem Undisturbed.take_eq {c : Call} (h : Undisturbed d s (.change c)) :
    ((s.tree.step c).entries d).take (s.position - 2) = (s.tree.entries d).take (s.position - 2) := by
  rcases h with hsmall | ⟨-, htake⟩
  · rw [Nat.sub_eq_zero_of_le hsmall.le, take_zero, take_zero]
  · exact htake

theorem ScanInv.change (h : ScanInv d s) {c : Call} (hu : Undisturbed d s (.change c)) :
    ScanInv d (s.step d (.change c)) := by
  refine ⟨h.named.step c, ?_, h.call, fun hmem => ?_⟩
  · obtain ⟨up, rest, hreturned, hup, hrest⟩ := h.shape
    refine ⟨up, rest, hreturned, hup, ?_⟩
    show _ = (((s.tree.step c).entries d).take (s.position - 2)).map _
    rw [hu.take_eq]
    exact hrest
  · obtain ⟨hpos, hlen⟩ := h.ended hmem
    rcases hu with hsmall | ⟨hsub, -⟩
    · exact absurd hpos (not_le.mpr hsmall)
    · exact ⟨hpos, hsub.length_le.trans hlen⟩

theorem ScanInv.enter (h : ScanInv d s) : ScanInv d (s.step d (.enter length)) := by
  unfold Scan.step
  cases hcall : s.call with
  | some => exact h
  | none =>
    obtain ⟨up, rest, hreturned, hshape⟩ := h.shape
    unfold Scan.returned at hreturned
    rw [hcall] at hreturned
    simp only [isSome_none, if_neg Bool.false_ne_true]
    split_ifs with hshort
    · refine ⟨h.named, ⟨up, rest, ?_, hshape⟩, nofun, fun hmem => ?_⟩
      · unfold Scan.returned
        rw [flatMap_append, ← hreturned]
        simp [Except.toOption]
      · rw [mem_append, mem_singleton] at hmem
        exact h.ended (hmem.resolve_right nofun)
    · refine ⟨h.named, ⟨up, rest, hreturned, hshape⟩, fun c hc => ?_, h.ended⟩
      cases hc
      exact ⟨Nat.not_lt.mp hshort, by simp⟩

/-- A call returns, with what it has copied. -/
theorem ScanInv.finish (h : ScanInv d s) (hcall : s.call = some c) (result : Option VfsError)
    (hend : result = none → c.records = [] → 2 ≤ s.position ∧ (s.tree.entries d).length ≤ s.position - 2) :
    ScanInv d (s.finish c result) := by
  obtain ⟨up, rest, hreturned, hshape⟩ := h.shape
  unfold Scan.returned at hreturned
  rw [hcall] at hreturned
  have hused := (h.call c hcall).2
  have hreply : ∀ reply : Except VfsError (List Dirent), reply.toOption.getD [] = c.records →
      (reply = .ok [] → result = none ∧ c.records = []) →
      ScanInv d { s with call := none, replies := s.replies ++ [reply] } := by
    intro reply hrecords hempty
    refine ⟨h.named, ⟨up, rest, ?_, hshape⟩, nofun, fun hmem => ?_⟩
    · unfold Scan.returned
      rw [flatMap_append, flatMap_singleton, hrecords, ← hreturned]
      simp
    · rw [mem_append, mem_singleton] at hmem
      rcases hmem with hmem | hnew
      · exact h.ended hmem
      · exact hend (hempty hnew.symm).1 (hempty hnew.symm).2
  unfold Scan.finish
  split
  · exact hreply _ rfl fun hr => ⟨rfl, by injection hr⟩
  by_cases hzero : c.used = 0
  · rw [if_neg (not_not.mpr hzero)]
    split_ifs
    · exact hreply _ (hused.mp hzero).symm nofun
    · exact hreply _ (hused.mp hzero).symm nofun
  · rw [if_pos hzero]
    exact hreply _ rfl fun hr => absurd (hused.mpr (by injection hr)) hzero

/-- The end is found behind all entries. -/
theorem readdir_none (h : tmpfsReaddir t d i = none) : 2 ≤ i ∧ (t.entries d).length ≤ i - 2 := by
  unfold tmpfsReaddir at h
  split_ifs at h with hsmall
  rw [map_eq_none_iff, getElem?_eq_none_iff] at h
  exact ⟨Nat.not_lt.mp hsmall, h⟩

theorem readdir_nextOffset (h : tmpfsReaddir t d i = some x) : x.nextOffset = i + 1 := by
  unfold tmpfsReaddir at h
  split at h
  · injection h with hx
    rw [← hx]
  · obtain ⟨e, -, hx⟩ := map_eq_some_iff.mp h
    rw [← hx]

/-- One more entry. -/
theorem readdir_shape {position : Nat} {up rest : List Dirent} (h : tmpfsReaddir t d position = some x)
    (hup : up.map Dirent.name = [dot, dotdot].take position)
    (hrest : rest.map (fun x => (x.name, x.ino)) =
      ((t.entries d).take (position - 2)).map fun e => (e.name.bytes, e.inode)) :
    ∃ up' rest', up ++ rest ++ [x] = up' ++ rest' ∧ up'.map Dirent.name = [dot, dotdot].take (position + 1) ∧
      rest'.map (fun x => (x.name, x.ino)) =
        ((t.entries d).take (position + 1 - 2)).map fun e => (e.name.bytes, e.inode) := by
  unfold tmpfsReaddir at h
  by_cases hsmall : position < 2
  · rw [if_pos hsmall] at h
    injection h with hx
    have hzero : position - 2 = 0 := Nat.sub_eq_zero_of_le hsmall.le
    rw [hzero, take_zero, map_nil, map_eq_nil_iff] at hrest
    refine ⟨up ++ [x], [], by rw [hrest, append_nil, append_nil], ?_, ?_⟩
    · rw [map_append, hup, ← hx]
      rcases Nat.lt_succ_iff_lt_or_eq.mp hsmall with hlt | heq
      · rw [Nat.lt_one_iff.mp hlt]
        rfl
      · rw [heq]
        rfl
    · rw [Nat.sub_eq_zero_of_le hsmall, take_zero]
      rfl
  · rw [if_neg hsmall, map_eq_some_iff] at h
    obtain ⟨e, he, hx⟩ := h
    have hpos : position + 1 - 2 = position - 2 + 1 := by omega
    refine ⟨up, rest ++ [x], append_assoc _ _ _, ?_, ?_⟩
    · rw [hup, take_of_length_le (by simp; omega), take_of_length_le (by simp; omega)]
    · rw [hpos, take_add_one, he, map_append, map_append, hrest, ← hx]
      rfl

theorem ScanInv.turn (h : ScanInv d s) {copy : Bool} : ScanInv d (s.step d (.turn copy)) := by
  unfold Scan.step
  cases hcall : s.call with
  | none => exact h
  | some c =>
    obtain ⟨hlength, hused⟩ := h.call c hcall
    simp only
    split_ifs with hfull
    · refine h.finish hcall none fun _ hempty => absurd hfull ?_
      rw [hused.mpr hempty]
      exact Nat.not_lt.mpr hlength
    unfold vfsNextDirent
    cases hread : tmpfsReaddir s.tree d s.position with
    | none => exact h.finish hcall none fun _ _ => readdir_none hread
    | some x =>
      simp only
      unfold linuxEmitDirent
      split_ifs with hfit hcopy
      · exact h.finish hcall (some _) nofun
      · exact h.finish hcall (some _) nofun
      obtain ⟨up, rest, hreturned, hup, hrest⟩ := h.shape
      obtain ⟨up', rest', happend, hup', hrest'⟩ := readdir_shape hread hup hrest
      rw [readdir_nextOffset hread]
      refine ⟨h.named, ⟨up', rest', ?_, hup', hrest'⟩, fun c' hc' => ?_, fun hmem => ?_⟩
      · rw [← happend, ← hreturned]
        unfold Scan.returned
        rw [hcall]
        simp
      · cases hc'
        have hpos := recordLength_pos x
        exact ⟨hlength, by simp; omega⟩
      · obtain ⟨hpos, hlen⟩ := h.ended hmem
        show 2 ≤ s.position + 1 ∧ (s.tree.entries d).length ≤ s.position + 1 - 2
        omega

theorem ScanInv.step (h : ScanInv d s) (e : Event) (hu : Undisturbed d s e) : ScanInv d (s.step d e) := by
  cases e with
  | change => exact h.change hu
  | enter => exact h.enter
  | turn => exact h.turn

/-- When the end has been found, the records behind `.` and `..` are those of the entries. -/
theorem ScanInv.complete (h : ScanInv d s) (hend : .ok [] ∈ s.replies) :
    (s.returned.drop 2).map (fun x => (x.name, x.ino)) =
      (s.tree.entries d).map fun e => (e.name.bytes, e.inode) := by
  obtain ⟨hpos, hlen⟩ := h.ended hend
  obtain ⟨up, rest, hreturned, hup, hrest⟩ := h.shape
  rw [take_of_length_le (by simp; omega)] at hup
  have hlength : up.length = 2 := by
    have := congrArg List.length hup
    rwa [length_map] at this
  rw [take_of_length_le hlen] at hrest
  rw [hreturned, ← hlength, drop_left, hrest]

theorem enter_step (hcall : s.call = none) (hlong : ¬ length < 24) :
    s.step d (.enter length) = { s with call := some ⟨length, 0, []⟩ } := by
  unfold Scan.step
  simp only
  rw [hcall, isSome_none, if_neg Bool.false_ne_true, if_neg hlong]

/-- A call with room for the entry at the position returns it first. -/
theorem enter_turn (hcall : s.call = none) (hread : tmpfsReaddir s.tree d s.position = some x)
    (hfit : recordLength x ≤ length) :
    ((s.step d (.enter length)).step d (.turn true)).call = some ⟨length, recordLength x, [x]⟩ := by
  have hpos := recordLength_pos x
  have hlong : ¬ length < 24 := by omega
  rw [enter_step hcall hlong]
  unfold Scan.step
  simp only
  rw [Nat.sub_zero, if_neg hlong]
  unfold vfsNextDirent
  rw [hread]
  simp only
  unfold linuxEmitDirent
  rw [if_neg (by simp only; omega)]
  simp

/-- A call at the end returns nothing. -/
theorem enter_turn_end (hcall : s.call = none) (hread : tmpfsReaddir s.tree d s.position = none)
    (hlong : 24 ≤ length) {copy : Bool} :
    ((s.step d (.enter length)).step d (.turn copy)).replies = s.replies ++ [.ok []] := by
  rw [enter_step hcall (Nat.not_lt.mpr hlong)]
  unfold Scan.step
  simp only
  rw [Nat.sub_zero, if_neg (Nat.not_lt.mpr hlong)]
  unfold vfsNextDirent
  rw [hread]
  rfl

/-- A record that does not fit is given back: the call ends, and the position is where it was. -/
theorem turn_unfit (hcall : s.call = some c) (hread : tmpfsReaddir s.tree d s.position = some x)
    (hunfit : c.length < c.used + recordLength x) {copy : Bool} :
    (s.step d (.turn copy)).call = none ∧ (s.step d (.turn copy)).position = s.position ∧
      (s.step d (.turn copy)).tree = s.tree := by
  unfold Scan.step
  rw [hcall]
  simp only
  split_ifs
  · exact ⟨rfl, rfl, rfl⟩
  unfold vfsNextDirent
  rw [hread]
  simp only
  unfold linuxEmitDirent
  rw [if_pos hunfit]
  exact ⟨rfl, rfl, rfl⟩

/-- The entry at the position stays there as long as it is in the directory. -/
theorem sublist_stays {l' : List Entry} {n : Nat} (hl : Keyed Entry.name l) (hsub : l'.Sublist l)
    (htake : l'.take n = l.take n) (he : l[n]? = some e) (hmem : ∃ e' ∈ l', e'.name = e.name) :
    l'[n]? = some e := by
  obtain ⟨e', he', hname⟩ := hmem
  have heq : e' = e := hl.inj (hsub.subset he') (mem_of_getElem? he) hname
  rw [heq] at he'
  have hn : n < l.length := (List.getElem?_eq_some_iff.mp he).1
  have hsplit : l = l.take n ++ l.drop n := (take_append_drop n l).symm
  have hdrop : l.drop n = e :: l.drop (n + 1) := by
    rw [drop_eq_getElem_cons hn]
    rw [getElem?_eq_getElem hn] at he
    injection he with he
    rw [he]
  -- what is behind the first `n` is a sublist of what was there, and `e` is not among the first `n`
  have hnot : e ∉ l.take n := by
    have hnodup := hl.nodup
    rw [hsplit, hdrop] at hnodup
    exact fun hin => (nodup_append.mp hnodup).2.2 e hin e mem_cons_self rfl
  have hrest : (l'.drop n).Sublist (l.drop n) := by
    have hsub' := hsub
    rw [hsplit, ← take_append_drop n l', htake] at hsub'
    exact (append_sublist_append_left _).mp hsub'
  have hin : e ∈ l'.drop n := by
    rw [← take_append_drop n l', mem_append, htake] at he'
    exact he'.resolve_left hnot
  have hhead : l'.drop n = e :: (l'.drop n).tail := by
    rw [hdrop] at hrest
    have hnodup : (e :: l.drop (n + 1)).Nodup := by
      rw [← hdrop]
      exact hl.nodup.sublist (drop_sublist n l)
    rcases sublist_cons_iff.mp hrest with hrest | ⟨r, hr, -⟩
    · exact absurd (hrest.subset hin) (nodup_cons.mp hnodup).1
    · rw [hr]
      rfl
  rw [← add_zero n, ← getElem?_drop, hhead]
  rfl

/-- Changes between two calls that leave the scan undisturbed. -/
theorem changes_keep {l : List Call} (h : Along (Scan.step d) (Undisturbed d) s (l.map .change)) :
    let r := (l.map .change).foldl (.step d) s
    r.position = s.position ∧ r.call = s.call ∧ (2 ≤ s.position →
      (r.tree.entries d).Sublist (s.tree.entries d) ∧ (r.tree.entries d).take (s.position - 2) =
        (s.tree.entries d).take (s.position - 2)) := by
  induction l generalizing s with
  | nil => exact ⟨rfl, rfl, fun _ => ⟨List.Sublist.refl _, rfl⟩⟩
  | cons c l ih =>
    obtain ⟨hu, hl⟩ := h
    obtain ⟨hposition, hcall, hentries⟩ := ih hl
    refine ⟨hposition, hcall, fun hpos => ?_⟩
    obtain ⟨hsub, htake⟩ := hentries hpos
    rcases hu with hsmall | ⟨hsub', htake'⟩
    · exact absurd hpos (not_le.mpr hsmall)
    · exact ⟨hsub.trans hsub', htake.trans htake'⟩

/-- What stands at the position stands there after the changes, if it is still in the directory. -/
theorem changes_read (hnamed : Named s.tree) (hread : tmpfsReaddir s.tree d s.position = some x)
    {l : List Call} (h : Along (.step d) (Undisturbed d) s (l.map .change))
    (hpresent : 2 ≤ s.position →
      ∃ e ∈ ((l.map .change).foldl (.step d) s).tree.entries d, e.name.bytes = x.name) :
    ∃ x', tmpfsReaddir ((l.map .change).foldl (.step d) s).tree d s.position = some x' ∧ x'.name = x.name ∧
      (2 ≤ s.position → x'.ino = x.ino) := by
  obtain ⟨-, -, hentries⟩ := changes_keep h
  unfold tmpfsReaddir at hread ⊢
  by_cases hsmall : s.position < 2
  · rw [if_pos hsmall] at hread ⊢
    injection hread with hx
    exact ⟨_, rfl, by rw [← hx], fun hpos => absurd hpos (not_le.mpr hsmall)⟩
  rw [if_neg hsmall] at hread ⊢
  obtain ⟨e, he, hx⟩ := map_eq_some_iff.mp hread
  obtain ⟨hsub, htake⟩ := hentries (Nat.not_lt.mp hsmall)
  obtain ⟨e', he', hname⟩ := hpresent (Nat.not_lt.mp hsmall)
  have hname : e'.name = e.name := by
    rw [← hx] at hname
    exact Name.ext hname
  rw [sublist_stays (hnamed d) hsub htake he ⟨e', he', hname⟩]
  exact ⟨_, rfl, by rw [← hx], fun _ => by rw [← hx]⟩

/-- What a scan returns. -/
structure ScanOk (d : Ino) (s : Scan) : Prop where
  /-- a scan that has come to the end has returned every entry of the directory once -/
  complete : .ok [] ∈ s.replies → ∀ e ∈ s.tree.entries d,
    (s.returned.drop 2).countP (fun x => x.name = e.name.bytes) = 1 ∧
    ∃ x ∈ s.returned.drop 2, x.name = e.name.bytes ∧ x.ino = e.inode
  /-- an entry that does not fit is the first of the next call, if the call has room for it and the entry is
      still there -/
  first : ∀ c x copy, s.call = some c → tmpfsReaddir s.tree d s.position = some x →
    c.length < c.used + recordLength x →
    ∀ (changes : List Call) (length : Nat),
      Along (.step d) (Undisturbed d) (s.step d (.turn copy)) (changes.map .change) →
    (2 ≤ s.position → ∃ e ∈ ((changes.map .change).foldl (.step d) (s.step d (.turn copy))).tree.entries d,
      e.name.bytes = x.name) →
    recordLength x ≤ length →
    ∃ x', x'.name = x.name ∧ (2 ≤ s.position → x'.ino = x.ino) ∧
      ((((changes.map .change).foldl (.step d) (s.step d (.turn copy))).step d (.enter length)).step d
        (.turn true)).call = some ⟨length, recordLength x', [x']⟩
  /-- a call with room for the next entry returns it, or nothing at the end -/
  progress : ∀ length, s.call = none → 24 ≤ length →
    (∀ x, tmpfsReaddir s.tree d s.position = some x → recordLength x ≤ length) →
    (∃ x, tmpfsReaddir s.tree d s.position = some x ∧
      ((s.step d (.enter length)).step d (.turn true)).call = some ⟨length, recordLength x, [x]⟩) ∨
    ((s.step d (.enter length)).step d (.turn true)).replies = s.replies ++ [.ok []]

theorem ScanInv.ok (h : ScanInv d s) : ScanOk d s where
  complete := by
    intro hend e he
    have hmap := h.complete hend
    constructor
    · have hnames := congrArg (countP fun p : List UInt8 × Ino => decide (p.1 = e.name.bytes)) hmap
      rw [countP_map, countP_map] at hnames
      have hone : (s.tree.entries d).countP (fun e' => decide (e'.name.bytes = e.name.bytes)) = 1 := by
        have hcount : (s.tree.entries d).countP (fun e' => decide (e'.name.bytes = e.name.bytes)) =
            (s.tree.entries d).count e := by
          refine countP_congr fun e' he' => ?_
          rw [decide_eq_true_eq, beq_iff_eq]
          exact ⟨fun hb => (h.named d).inj he' he (Name.ext hb), fun heq => by rw [heq]⟩
        rw [hcount, count_eq_one_of_mem (h.named d).nodup he]
      exact hnames.trans hone
    · have hin : (e.name.bytes, e.inode) ∈ (s.returned.drop 2).map fun x => (x.name, x.ino) := by
        rw [hmap]
        exact mem_map_of_mem he
      obtain ⟨x, hx, heq⟩ := mem_map.mp hin
      injection heq with hname hino
      exact ⟨x, hx, hname, hino⟩
  first := by
    intro c x copy hcall hread hunfit changes length hl hpresent hfit
    obtain ⟨hnone, hposition, htree⟩ := turn_unfit hcall hread hunfit
    generalize s.step d (.turn copy) = s₁ at hl hpresent hnone hposition htree ⊢
    have hread₁ : tmpfsReaddir s₁.tree d s₁.position = some x := by rw [htree, hposition]; exact hread
    rw [← hposition] at hpresent ⊢
    obtain ⟨x', hread', hname, hino⟩ := changes_read (by rw [htree]; exact h.named) hread₁ hl hpresent
    obtain ⟨hposition', hcall', -⟩ := changes_keep hl
    rw [← hposition'] at hread'
    have hlength : recordLength x' = recordLength x := by
      unfold recordLength
      rw [hname]
    exact ⟨x', hname, hino, enter_turn (hcall'.trans hnone) hread' (by rw [hlength]; exact hfit)⟩
  progress := by
    intro length hcall hlong hroom
    cases hread : tmpfsReaddir s.tree d s.position with
    | none => exact .inr (enter_turn_end hcall hread hlong)
    | some x => exact .inl ⟨x, rfl, enter_turn hcall hread (hroom x hread)⟩

/-- **Scans of a directory**: after any calls on the tmpfs, a scan that the calls of others leave undisturbed
    returns every entry that is there at its end once, so every entry that is there throughout, and what does
    not fit into a buffer comes first in the next. -/
theorem scan_complete (before : List Call) (d : Ino) (l : List Event)
    (hl : Along (.step d) (Undisturbed d) (.start (before.foldl step mount)) l) :
    ScanOk d (l.foldl (.step d) (.start (before.foldl step mount))) := by
  have hnamed : Named (before.foldl step mount) :=
    foldl_invariant (I := Named) (fun _ c (ht : Named _) => ht.step c) mount_named before
  have hinv := hl.foldl (fun _ e hs hu => hs.step e hu) (start_inv hnamed)
  exact hinv.ok

instance (d : Ino) (s : Scan) (e : Event) : Decidable (Undisturbed d s e) :=
  match e with
  | .change c => inferInstanceAs (Decidable (s.position < 2 ∨ ((s.tree.step c).entries d).Sublist (s.tree.entries d) ∧
      ((s.tree.step c).entries d).take (s.position - 2) = (s.tree.entries d).take (s.position - 2)))
  | .enter _ | .turn _ => isTrue trivial

def nameC : Name := letter 99

/-- Three files in the root, in the order of the list `c`, `b`, `a`. -/
def threeFiles : List Call :=
  [.create 1 nameA true true true, .create 1 nameB true true true, .create 1 nameC true true true]

/-- A scan with buffers of 80, 24 and 40 bytes; the file `a` goes after the first. -/
def threeCalls : List Event :=
  [.enter 80, .turn true, .turn true, .turn true, .turn true, .change (.unlink 1 nameA), .enter 24, .turn true,
    .turn true, .enter 40, .turn true]

theorem threeCalls_complete :
    Along (.step 1) (Undisturbed 1) (.start (threeFiles.foldl step mount)) threeCalls ∧
    (threeCalls.foldl (Scan.step 1) (Scan.start (threeFiles.foldl step mount))).replies.map
        (fun r => (r.toOption.getD []).map Dirent.name) = [[dot, dotdot, [99]], [[98]], []] ∧
    ScanOk 1 (threeCalls.foldl (.step 1) (.start (threeFiles.foldl step mount))) :=
  ⟨by decide +kernel, by decide +kernel, scan_complete threeFiles 1 threeCalls (by decide +kernel)⟩

/-- A file is created between two calls of a scan, and `b`, which has been returned, is returned again; or a
    file that has been returned is removed, and `a` is never returned. -/
theorem changedDirectory_misleads_scan :
    let files : List Call := [.create 1 nameA true true true, .create 1 nameB true true true]
    let scan (change : Call) : List Event :=
      [.enter 72, .turn true, .turn true, .turn true, .turn true, .change change, .enter 72, .turn true, .turn true,
        .turn true, .enter 72, .turn true]
    let names (change : Call) :=
      ((scan change).foldl (Scan.step 1) (Scan.start (files.foldl step mount))).replies.map
        fun r => (r.toOption.getD []).map Dirent.name
    names (.create 1 nameC true true true) = [[dot, dotdot, [98]], [[98], [97]], []] ∧
    names (.unlink 1 nameB) = [[dot, dotdot, [98]], [], []] := by
  decide +kernel

end Caffeinix.Tmpfs
