import Mathlib.Data.List.Basic
import Caffeinix.Lib.Runs

/-!
# `Process.Credentials` — the identity a process acts with

A process has four user ids and four group ids (real, effective, saved, file system) and a table of
supplementary groups. Nine system calls change them, each in one section of the process' lock. The user and
the group calls come in pairs with one rule each: the caller is privileged if its effective **user** id is 0,
and a caller that is not may only copy the ids it has around.

The result is about any sequence of calls by one process: without privilege no id appears that was not among
the ids at the start, so a process that has given up 0 does not find it again.
-/

namespace Caffeinix.Process

/-- The four ids of one kind: `uid`, `euid`, `suid`, `fsuid` or `gid`, `egid`, `sgid`, `fsgid`. -/
structure Ids where
  real : UInt32
  effective : UInt32
  saved : UInt32
  fs : UInt32
deriving DecidableEq, Repr

def Ids.toList (i : Ids) : List UInt32 := [i.real, i.effective, i.saved, i.fs]

/-- `PROCESS_GROUP_MAX`. -/
def processGroupMax : Nat := 32

/-- `struct process_credentials`. -/
structure Credentials where
  user : Ids
  group : Ids
  groupCount : Nat
  groups : Vector UInt32 processGroupMax
deriving DecidableEq, Repr

variable (c : Credentials)

/-- `!credentials->euid`. -/
def Credentials.privileged : Bool := c.user.effective == 0

/-- `LINUX_ID_NO_CHANGE`. -/
def linuxIdNoChange : UInt32 := 0xffffffff

def linuxEperm : Int := 1
def linuxEfault : Int := 14
def linuxEinval : Int := 22

/-! ## The rules, for ids of either kind -/

/-- `credentials_id_allowed`. -/
def credentialsIdAllowed (requested first second third : UInt32) : Bool :=
  requested == linuxIdNoChange || requested == first || requested == second || requested == third

/-- The new value of an id: `if (id != LINUX_ID_NO_CHANGE) … = id`. -/
def replaced (id old : UInt32) : UInt32 := if id ≠ linuxIdNoChange then id else old

/-- `sys_linux_setuid` and `sys_linux_setgid`. -/
def Ids.set (privileged : Bool) (i : Ids) (id : UInt32) : Ids × Int :=
  if id = linuxIdNoChange then (i, -linuxEinval)
  else if privileged then (⟨id, id, id, id⟩, 0)
  else if id = i.real ∨ id = i.saved then ({ i with effective := id, fs := id }, 0)
  else (i, -linuxEperm)

/-- `sys_linux_setreuid` and `sys_linux_setregid`. The saved id follows the effective one, unless only the
    effective id was asked for and it is the old real id. -/
def Ids.setRe (privileged : Bool) (i : Ids) (real effective : UInt32) : Ids × Int :=
  if !privileged && (!credentialsIdAllowed real i.real i.effective i.real ||
      !credentialsIdAllowed effective i.real i.effective i.saved) then (i, -linuxEperm)
  else
    let effective' := replaced effective i.effective
    ({ real := replaced real i.real
       effective := effective'
       saved := if real ≠ linuxIdNoChange ∨ (effective ≠ linuxIdNoChange ∧ effective ≠ i.real)
         then effective' else i.saved
       fs := if effective ≠ linuxIdNoChange then effective' else i.fs }, 0)

/-- `sys_linux_setresuid` and `sys_linux_setresgid`. -/
def Ids.setRes (privileged : Bool) (i : Ids) (real effective saved : UInt32) : Ids × Int :=
  if !privileged && (!credentialsIdAllowed real i.real i.effective i.saved ||
      !credentialsIdAllowed effective i.real i.effective i.saved ||
      !credentialsIdAllowed saved i.real i.effective i.saved) then (i, -linuxEperm)
  else
    let effective' := replaced effective i.effective
    ({ real := replaced real i.real
       effective := effective'
       saved := replaced saved i.saved
       fs := if effective ≠ linuxIdNoChange then effective' else i.fs }, 0)

/-- `sys_linux_setfsuid` and `sys_linux_setfsgid`, which have no error: the old id is returned either way. -/
def Ids.setFs (privileged : Bool) (i : Ids) (id : UInt32) : Ids × Int :=
  if id ≠ linuxIdNoChange ∧
      (privileged ∨ id = i.real ∨ id = i.effective ∨ id = i.saved ∨ id = i.fs) then
    ({ i with fs := id }, i.fs.toNat)
  else (i, i.fs.toNat)

/-! ## The calls -/

namespace Credentials

/-- The result of a user id call put back. -/
def withUser (r : Ids × Int) : Credentials × Int := ({ c with user := r.1 }, r.2)

/-- The result of a group id call put back. -/
def withGroup (r : Ids × Int) : Credentials × Int := ({ c with group := r.1 }, r.2)

def setuid (uid : UInt32) : Credentials × Int :=
  c.withUser (c.user.set c.privileged uid)

def setgid (gid : UInt32) : Credentials × Int :=
  c.withGroup (c.group.set c.privileged gid)

def setreuid (ruid euid : UInt32) : Credentials × Int :=
  c.withUser (c.user.setRe c.privileged ruid euid)

def setregid (rgid egid : UInt32) : Credentials × Int :=
  c.withGroup (c.group.setRe c.privileged rgid egid)

def setresuid (ruid euid suid : UInt32) : Credentials × Int :=
  c.withUser (c.user.setRes c.privileged ruid euid suid)

def setresgid (rgid egid sgid : UInt32) : Credentials × Int :=
  c.withGroup (c.group.setRes c.privileged rgid egid sgid)

def setfsuid (uid : UInt32) : Credentials × Int :=
  c.withUser (c.user.setFs c.privileged uid)

def setfsgid (gid : UInt32) : Credentials × Int :=
  c.withGroup (c.group.setFs c.privileged gid)

/-- `sys_linux_setgroups`: `words` is the user memory at the address, `none` if it cannot be read. The values
    themselves are not checked. -/
def setgroups (size : Int) (words : Option (Nat → UInt32)) : Credentials × Int :=
  if size < 0 ∨ size > processGroupMax then (c, -linuxEinval)
  else if size ≠ 0 ∧ words.isNone then (c, -linuxEfault)
  else if !c.privileged then (c, -linuxEperm)
  else
    -- `memmove` of the first `size` entries, `memset` of the rest
    ({ c with
        groupCount := size.toNat
        groups := Vector.ofFn fun n => if (n : Int) < size then words.elim 0 (· n) else 0 }, 0)

end Credentials

/-- A credential call with its arguments. -/
inductive Call where
  | setuid (uid : UInt32)
  | setgid (gid : UInt32)
  | setreuid (ruid euid : UInt32)
  | setregid (rgid egid : UInt32)
  | setresuid (ruid euid suid : UInt32)
  | setresgid (rgid egid sgid : UInt32)
  | setfsuid (uid : UInt32)
  | setfsgid (gid : UInt32)
  | setgroups (size : Int) (words : Option (Nat → UInt32))

/-- The credentials after a call, and what the call returns. -/
def Credentials.call : Call → Credentials × Int
  | .setuid uid => c.setuid uid
  | .setgid gid => c.setgid gid
  | .setreuid ruid euid => c.setreuid ruid euid
  | .setregid rgid egid => c.setregid rgid egid
  | .setresuid ruid euid suid => c.setresuid ruid euid suid
  | .setresgid rgid egid sgid => c.setresgid rgid egid sgid
  | .setfsuid uid => c.setfsuid uid
  | .setfsgid gid => c.setfsgid gid
  | .setgroups size words => c.setgroups size words

/-- The credentials after a sequence of calls. -/
def Credentials.calls (l : List Call) : Credentials := l.foldl (fun c k => (c.call k).1) c

/-! ## What the rules can store -/

/-- `j` has only ids of `i`. -/
def Ids.From (i j : Ids) : Prop := ∀ id ∈ j.toList, id ∈ i.toList

theorem Ids.From.refl (i : Ids) : i.From i := fun _ h => h

variable {i j : Ids} {privileged : Bool} {id old : UInt32} {c : Credentials} {r : Ids × Int}

theorem Ids.From.trans {k : Ids} (h : i.From j) (h' : j.From k) : i.From k := fun id hid => h id (h' id hid)

theorem Ids.from_iff : i.From j ↔
    j.real ∈ i.toList ∧ j.effective ∈ i.toList ∧ j.saved ∈ i.toList ∧ j.fs ∈ i.toList := by
  simp [Ids.From, Ids.toList]

@[simp] theorem Ids.real_mem (i : Ids) : i.real ∈ i.toList := by simp [Ids.toList]
@[simp] theorem Ids.effective_mem (i : Ids) : i.effective ∈ i.toList := by simp [Ids.toList]
@[simp] theorem Ids.saved_mem (i : Ids) : i.saved ∈ i.toList := by simp [Ids.toList]
@[simp] theorem Ids.fs_mem (i : Ids) : i.fs ∈ i.toList := by simp [Ids.toList]

/-- Without privilege every id of `j` is one of `i`, and `LINUX_ID_NO_CHANGE` is one only if it was. This is all that
    the rules below can do. -/
structure Ids.Steps (privileged : Bool) (i j : Ids) : Prop where
  confined : privileged = false → i.From j
  stored : linuxIdNoChange ∈ j.toList → linuxIdNoChange ∈ i.toList

theorem Ids.Steps.refl (privileged : Bool) (i : Ids) : i.Steps privileged i :=
  ⟨fun _ => .refl i, id⟩

/-- What a new id may be. -/
def Ids.Admits (i : Ids) (privileged : Bool) (id : UInt32) : Prop :=
  id ∈ i.toList ∨ (id ≠ linuxIdNoChange ∧ (privileged = false → id ∈ i.toList))

/-- The two halves of `Steps` from one look at the four new ids. -/
theorem Ids.Steps.of (hreal : i.Admits privileged j.real) (heffective : i.Admits privileged j.effective)
    (hsaved : i.Admits privileged j.saved) (hfs : i.Admits privileged j.fs) : i.Steps privileged j := by
  have h : ∀ id ∈ j.toList, i.Admits privileged id := by simp [Ids.toList, *]
  exact ⟨fun hp id hid => (h id hid).elim (fun hi => hi) fun hi => hi.2 hp,
    fun hid => (h _ hid).elim (fun hi => hi) fun hi => absurd rfl hi.1⟩

theorem Ids.set_steps (privileged : Bool) (i : Ids) (id : UInt32) :
    i.Steps privileged (i.set privileged id).1 := by
  unfold Ids.set
  split_ifs with hno hp hid
  · exact .refl ..
  · have hany : i.Admits privileged id := .inr ⟨hno, fun h => absurd (hp.symm.trans h) (by decide)⟩
    exact .of hany hany hany hany
  · have hmem : id ∈ i.toList := by rcases hid with rfl | rfl <;> simp
    exact ⟨fun _ => Ids.from_iff.mpr ⟨by simp, hmem, by simp, hmem⟩,
      fun h => Ids.from_iff.mpr ⟨by simp, hmem, by simp, hmem⟩ _ h⟩
  · exact .refl ..

/-- A value that passed `credentials_id_allowed` against ids of `i`. -/
theorem replaced_mem {a b c : UInt32} (hold : old ∈ i.toList) (ha : a ∈ i.toList) (hb : b ∈ i.toList)
    (hc : c ∈ i.toList) (h : credentialsIdAllowed id a b c = true) : replaced id old ∈ i.toList := by
  unfold replaced
  split_ifs with hno
  · simp only [credentialsIdAllowed, Bool.or_eq_true, beq_iff_eq] at h
    rcases h with ((h | rfl) | rfl) | rfl
    · exact absurd h hno
    · exact ha
    · exact hb
    · exact hc
  · exact hold

/-- A replaced id is the old one or not `LINUX_ID_NO_CHANGE`. -/
theorem replaced_stored (id old : UInt32) : replaced id old = old ∨ replaced id old ≠ linuxIdNoChange := by
  unfold replaced
  split_ifs with hno
  · exact .inr hno
  · exact .inl rfl

/-- A replaced id of `i`, as `Steps.of` wants it. -/
theorem replaced_cases (hold : old ∈ i.toList)
    (h : privileged = false → replaced id old ∈ i.toList) : i.Admits privileged (replaced id old) := by
  rcases replaced_stored id old with he | hne
  · exact .inl (by rwa [he])
  · exact .inr ⟨hne, h⟩

variable (privileged : Bool) (i : Ids)

theorem Ids.setRe_steps (real effective : UInt32) :
    i.Steps privileged (i.setRe privileged real effective).1 := by
  unfold Ids.setRe
  split
  · exact .refl ..
  case isFalse hdenied =>
    have hallowed : privileged = false → credentialsIdAllowed real i.real i.effective i.real = true ∧
        credentialsIdAllowed effective i.real i.effective i.saved = true := by
      intro hp
      simpa [hp] using hdenied
    have hreal := replaced_cases i.real_mem fun hp =>
      replaced_mem i.real_mem i.real_mem i.effective_mem i.real_mem (hallowed hp).1
    have heff := replaced_cases i.effective_mem fun hp =>
      replaced_mem i.effective_mem i.real_mem i.effective_mem i.saved_mem (hallowed hp).2
    refine .of hreal heff ?_ ?_ <;> dsimp only
    · split_ifs
      · exact heff
      · exact .inl i.saved_mem
    · split_ifs
      · exact heff
      · exact .inl i.fs_mem

theorem Ids.setRes_steps (real effective saved : UInt32) :
    i.Steps privileged (i.setRes privileged real effective saved).1 := by
  unfold Ids.setRes
  split
  · exact .refl ..
  case isFalse hdenied =>
    have hallowed : privileged = false → ∀ id ∈ [real, effective, saved],
        credentialsIdAllowed id i.real i.effective i.saved = true := by
      intro hp
      simpa [hp, and_assoc] using hdenied
    have hcases : ∀ id ∈ [real, effective, saved], ∀ old ∈ i.toList, i.Admits privileged (replaced id old) :=
      fun id hid old hold => replaced_cases hold fun hp =>
        replaced_mem hold i.real_mem i.effective_mem i.saved_mem (hallowed hp id hid)
    have heff := hcases effective (by simp) _ i.effective_mem
    refine .of (hcases real (by simp) _ i.real_mem) heff (hcases saved (by simp) _ i.saved_mem) ?_
    split_ifs
    · exact heff
    · exact .inl i.fs_mem

theorem Ids.setFs_steps (id : UInt32) : i.Steps privileged (i.setFs privileged id).1 := by
  unfold Ids.setFs
  split_ifs with h
  · refine .of (.inl i.real_mem) (.inl i.effective_mem) (.inl i.saved_mem) (.inr ⟨h.1, fun hp => ?_⟩)
    rcases h.2 with hp' | rfl | rfl | rfl | rfl
    · exact absurd (hp'.symm.trans hp) (by decide)
    · exact i.real_mem
    · exact i.effective_mem
    · exact i.saved_mem
    · exact i.fs_mem
  · exact .refl ..

/-! ## One call -/

/-- What one call can do to the credentials, whoever makes it. -/
structure Credentials.Steps (c d : Credentials) : Prop where
  user : c.user.Steps c.privileged d.user
  group : c.group.Steps c.privileged d.group
  groups : c.privileged = false → d.groupCount = c.groupCount ∧ d.groups = c.groups

theorem Credentials.withUser_steps (h : c.user.Steps c.privileged r.1) : c.Steps (c.withUser r).1 :=
  ⟨h, .refl .., fun _ => ⟨rfl, rfl⟩⟩

theorem Credentials.withGroup_steps (h : c.group.Steps c.privileged r.1) : c.Steps (c.withGroup r).1 :=
  ⟨.refl .., h, fun _ => ⟨rfl, rfl⟩⟩

theorem Credentials.setgroups_steps {size : Int} {words : Option (Nat → UInt32)} :
    c.Steps (c.setgroups size words).1 := by
  have hsame : c.Steps c := ⟨.refl .., .refl .., fun _ => ⟨rfl, rfl⟩⟩
  unfold Credentials.setgroups
  split_ifs with hsize hwords hp
  · exact hsame
  · exact hsame
  · exact hsame
  · exact ⟨.refl .., .refl .., fun h => absurd (by simpa using h) hp⟩

theorem Credentials.call_steps (c : Credentials) (k : Call) : c.Steps (c.call k).1 := by
  cases k with
  | setuid => exact withUser_steps (Ids.set_steps ..)
  | setgid => exact withGroup_steps (Ids.set_steps ..)
  | setreuid => exact withUser_steps (Ids.setRe_steps ..)
  | setregid => exact withGroup_steps (Ids.setRe_steps ..)
  | setresuid => exact withUser_steps (Ids.setRes_steps ..)
  | setresgid => exact withGroup_steps (Ids.setRes_steps ..)
  | setfsuid => exact withUser_steps (Ids.setFs_steps ..)
  | setfsgid => exact withGroup_steps (Ids.setFs_steps ..)
  | setgroups => exact setgroups_steps

/-! ## Sequences of calls -/

/-- What is left of the credentials `c` in `d` for a process without privilege. -/
structure Confined (c d : Credentials) : Prop where
  user : c.user.From d.user
  group : c.group.From d.group
  groupCount : d.groupCount = c.groupCount
  groups : d.groups = c.groups

theorem Confined.refl (c : Credentials) : Confined c c := ⟨.refl _, .refl _, rfl, rfl⟩

/-- 0 is not among the user ids, so it is not among those left, and the next call is made without privilege. -/
theorem Confined.call {d : Credentials} (h0 : 0 ∉ c.user.toList) (h : Confined c d) {k : Call} :
    Confined c (d.call k).1 := by
  have hp : d.privileged = false := by
    have hne : d.user.effective ≠ 0 := fun he => h0 (h.user 0 (he ▸ d.user.effective_mem))
    simpa [Credentials.privileged] using hne
  have hs := d.call_steps k
  obtain ⟨hcount, hgroups⟩ := hs.groups hp
  exact ⟨h.user.trans (hs.user.confined hp), h.group.trans (hs.group.confined hp), hcount.trans h.groupCount,
    hgroups.trans h.groups⟩

theorem Credentials.calls_confined (h0 : 0 ∉ c.user.toList) (l : List Call) : Confined c (c.calls l) :=
  Runs.foldl_invariant (fun _ _ h => h.call h0) (.refl c) l

/-- The values that mean "no change" in `d` come from `c`. -/
structure Stored (c d : Credentials) : Prop where
  user : linuxIdNoChange ∈ d.user.toList → linuxIdNoChange ∈ c.user.toList
  group : linuxIdNoChange ∈ d.group.toList → linuxIdNoChange ∈ c.group.toList

theorem Credentials.calls_stored (c : Credentials) {l : List Call} : Stored c (c.calls l) := by
  refine Runs.foldl_invariant (fun d k h => ?_) ⟨id, id⟩ l
  have hs := d.call_steps k
  exact ⟨fun hm => h.user (hs.user.stored hm), fun hm => h.group (hs.group.stored hm)⟩

/-- Four ids out of one value are that value. -/
theorem Ids.From.const (h : Ids.From ⟨id, id, id, id⟩ j) : j = ⟨id, id, id, id⟩ := by
  obtain ⟨hreal, heff, hsaved, hfs⟩ := Ids.from_iff.mp h
  cases j
  simp_all [Ids.toList]

/-- What a privileged `setuid` that succeeds stores. -/
theorem Credentials.setuid_privileged {u : UInt32} (hp : c.user.effective = 0) (hok : (c.setuid u).2 = 0) :
    (c.setuid u).1.user = ⟨u, u, u, u⟩ := by
  have hpriv : c.privileged = true := by simp [Credentials.privileged, hp]
  have hset : (c.setuid u).1.user = (c.user.set true u).1 := by rw [← hpriv]; rfl
  have hres : (c.setuid u).2 = (c.user.set true u).2 := by rw [← hpriv]; rfl
  rw [hset]
  rw [hres] at hok
  by_cases hno : u = linuxIdNoChange
  · rw [Ids.set, if_pos hno] at hok
    exact absurd (show -linuxEinval = 0 from hok) (by decide)
  · rw [Ids.set, if_neg hno]
    rfl

/-- **Credentials are confined.** Without 0 among the user ids, no sequence of calls brings in an id that was
    not there or changes the supplementary groups; so after a privileged `setuid` to another user the user
    ids stay; and whoever calls, no sequence stores `LINUX_ID_NO_CHANGE` as one of the eight ids. -/
theorem credentials_confined (c : Credentials) (l : List Call) :
    (0 ∉ c.user.toList →
      (∀ id ∈ (c.calls l).user.toList, id ∈ c.user.toList) ∧
      (∀ id ∈ (c.calls l).group.toList, id ∈ c.group.toList) ∧
      (c.calls l).groupCount = c.groupCount ∧ (c.calls l).groups = c.groups) ∧
    (c.user.effective = 0 → ∀ u, u ≠ 0 → (c.setuid u).2 = 0 →
      (c.setuid u).1.user = ⟨u, u, u, u⟩ ∧ ((c.setuid u).1.calls l).user = (c.setuid u).1.user) ∧
    (linuxIdNoChange ∈ (c.calls l).user.toList → linuxIdNoChange ∈ c.user.toList) ∧
    (linuxIdNoChange ∈ (c.calls l).group.toList → linuxIdNoChange ∈ c.group.toList) := by
  refine ⟨fun h0 => ?_, fun hp u hu hok => ?_, c.calls_stored.user, c.calls_stored.group⟩
  · have h := c.calls_confined h0 l
    exact ⟨h.user, h.group, h.groupCount, h.groups⟩
  · have hall := Credentials.setuid_privileged hp hok
    have h0 : 0 ∉ (c.setuid u).1.user.toList := by
      rw [hall]
      simpa [Ids.toList] using fun h : 0 = u => hu h.symm
    have hfrom := (Credentials.calls_confined h0 l).user
    rw [hall] at hfrom
    exact ⟨hall, hfrom.const.trans hall.symm⟩

/-- The credentials of the first process: all zero, no groups. -/
def rootCredentials : Credentials where
  user := ⟨0, 0, 0, 0⟩
  group := ⟨0, 0, 0, 0⟩
  groupCount := 0
  groups := Vector.replicate processGroupMax 0

/-- User 1000 with the ids of two users tries to get 0 back. -/
theorem dropped_confined :
    (∀ id ∈ (({ rootCredentials with user := ⟨1000, 1001, 1000, 1001⟩ } : Credentials).calls
        [.setreuid 1001 1000, .setuid 0, .setresuid 0 0 0, .setfsuid 0, .setgroups 0 none]).user.toList,
      id ∈ [1000, 1001, 1000, 1001]) ∧
    ((rootCredentials.setuid 1000).1.calls [.setuid 0, .setreuid 0 0]).user = ⟨1000, 1000, 1000, 1000⟩ :=
  ⟨((credentials_confined _ _).1 (by decide)).1,
    (((credentials_confined rootCredentials _).2.1 rfl 1000 (by decide) (by decide)).2).trans
      ((credentials_confined rootCredentials []).2.1 rfl 1000 (by decide) (by decide)).1⟩

/-! ## Where new ids come from -/

theorem Confined.trans {d e : Credentials} (h : Confined c d) (h' : Confined d e) : Confined c e :=
  ⟨h.user.trans h'.user, h.group.trans h'.group, h'.groupCount.trans h.groupCount, h'.groups.trans h.groups⟩

theorem Credentials.call_confined (hp : c.user.effective ≠ 0) (k : Call) : Confined c (c.call k).1 := by
  have hp : c.privileged = false := by simpa [Credentials.privileged] using hp
  have hs := c.call_steps k
  exact ⟨hs.user.confined hp, hs.group.confined hp, (hs.groups hp).1, (hs.groups hp).2⟩

/-- **New ids come from privilege**, whatever the ids are at first: a sequence of calls brings in an id or changes
    the groups only if one of its calls is made with 0 as the effective user id. -/
theorem new_ids_privileged (c : Credentials) (l : List Call) :
    Confined c (c.calls l) ∨ ∃ before k after, l = before ++ k :: after ∧ (c.calls before).user.effective = 0 := by
  induction l generalizing c with
  | nil => exact .inl (.refl c)
  | cons k l ih =>
    by_cases hp : c.user.effective = 0
    · exact .inr ⟨[], k, l, rfl, hp⟩
    rcases ih (c.call k).1 with h | ⟨before, k', after, rfl, hp'⟩
    · exact .inl ((Credentials.call_confined hp k).trans h)
    · exact .inr ⟨k :: before, k', after, rfl, hp'⟩

end Caffeinix.Process
