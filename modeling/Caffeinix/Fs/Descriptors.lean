import Caffeinix.Fs.OpenFileInvariant

/-!
# `Fs.Descriptors` — the calls on descriptors keep the counts

Each call on descriptors, areas and cache entries is a step that handles references (`Works`) and leaves the
counts of the files right.
-/

namespace Caffeinix.Fs

open List Sched Files Works
open Function (update update_of_ne update_self)

variable {Tid Pid Pipe Other Private : Type} {s s' : Files Tid Pid Pipe Other Private} {t : Tid} {p : Pid}

/-- The step handles references, and the counts are right. -/
structure Handles (s s' : Files Tid Pid Pipe Other Private) (t : Tid) (p : Pid) : Prop where
  works : Works s s' t p
  counted : Counted s'

theorem Handles.trans {s'' : Files Tid Pid Pipe Other Private} (h : Handles s s' t p) (h' : Handles s' s'' t p) :
    Handles s s'' t p := ⟨h.works.trans h'.works, h'.counted⟩

/-! ## References -/

variable {f : FileId} {fd : Fd} {slots : Fd → Option FileId} {reference : Reference} {h : Holder Tid Pid}

/-- A file may change, but not whose end of which pipe it is. -/
theorem works_setFile {file : VfsFile Pipe} (hpipe : file.pipe = (s.file f).pipe)
    (hflags : (s.file f).pipe.isSome → file.openRead = (s.file f).openRead ∧ file.openWrite = (s.file f).openWrite) :
    Works s (s.setFile f file) t p :=
  { refl s t p with
    file := by
      intro g
      by_cases hg : g = f
      · subst hg
        simp only [setFile, update_self]
        exact ⟨hpipe, hflags⟩
      · simp only [setFile, update_of_ne hg]
        exact ⟨trivial, fun _ => ⟨trivial, trivial⟩⟩ }

theorem mem_tableReferences (h : slots fd = some f) : (⟨f, true⟩ : Reference) ∈ tableReferences slots :=
  mem_filterMap.2 ⟨fd, mem_finRange fd, by rw [h]; rfl⟩

/-- What is in a table has a reference. -/
theorem Counted.pos_slot (hC : Counted s) (h : s.slots p fd = some f) : 0 < (s.file f).ref := by
  have hm : (⟨f, true⟩ : Reference) ∈ s.references (.table p) := mem_tableReferences h
  exact hC.pos hm

theorem Counted.pos_local (hC : Counted s) (h : reference ∈ s.locals t) :
    0 < (s.file reference.file).ref := by
  have hm : reference ∈ s.references (.hand t) :=
    mem_append_left _ (mem_append_left _ h)
  exact hC.pos hm

theorem freeFd_none {minimum : Nat} (h : freeFd slots minimum = some fd) : slots fd = none := by
  have hfound := List.find?_some h
  simp only [Bool.and_eq_true, decide_eq_true_eq] at hfound
  exact hfound.2

/-- `file_alloc` gives a file that nobody refers to. -/
theorem fileAlloc_free (hC : Counted s) (h : fileAlloc s = some f) :
    (s.file f).ref = 0 ∧ s.file f = VfsFile.free := by
  have hfound := List.find?_some h
  have hzero : (s.file f).ref = 0 := by simpa using hfound
  exact ⟨hzero, hC.free f hzero⟩

/-- `file_dup` is one more reference, wherever it goes. -/
theorem Counted.fileDup (hC : Counted s) (hpos : 0 < (s.file f).ref)
    (hg : Gains (fileDup s f) s' h ⟨f, true⟩) (hfile : s'.file = (fileDup s f).file) : Counted s' := by
  rw [fileDup_eq hpos] at hg hfile
  exact hC.dup hg.of_setFile hfile

/-- A held reference is counted where it is kept. -/
theorem Counted.fileHold (hC : Counted s) (hpos : 0 < (s.file f).ref)
    (hg : Gains (fileHold s f) s' h ⟨f, false⟩) (hfile : s'.file = (fileHold s f).file) : Counted s' := by
  rw [fileHold_eq hpos] at hg hfile
  exact hC.hold hg.of_setFile hfile

theorem works_fileDup (hpos : 0 < (s.file f).ref) : Works s (fileDup s f) t p := by
  rw [fileDup_eq hpos]
  exact works_setFile rfl fun _ => ⟨rfl, rfl⟩

theorem works_fileHold (hpos : 0 < (s.file f).ref) : Works s (fileHold s f) t p := by
  rw [fileHold_eq hpos]
  exact works_setFile rfl fun _ => ⟨rfl, rfl⟩

/-- The areas of one process change. -/
theorem gains_space (hhere : ∀ q, (s'.areas p).countP q = (s.areas p).countP q + weight q reference)
    (hothers : ∀ p', p' ≠ p → s'.areas p' = s.areas p') (hslots : s'.slots = s.slots)
    (hcache : s'.cache = s.cache) (hhand : ∀ t, s'.inHand t = s.inHand t) : Gains s s' (.space p) reference :=
  gains_of hhere (fun _ _ => by rw [hslots]) (fun p' hp => hothers p' fun he => hp (by rw [he])) (fun _ => hcache)
    fun t _ => hhand t

/-- A new entry of the page cache is a new reference. -/
theorem cacheCons_gains :
    Gains s { s with cache := reference :: s.cache } .cache reference :=
  gains_of (fun q => countP_cons_weight q) (fun _ _ => rfl) (fun _ _ => rfl) (fun h => absurd rfl h)
    fun _ _ => rfl

theorem cacheErase_gains (hm : reference ∈ s.cache) :
    Gains { s with cache := s.cache.erase reference } s .cache reference :=
  gains_of (countP_erase_weight hm) (fun _ _ => rfl) (fun _ _ => rfl) (fun h => absurd rfl h) fun _ _ => rfl

/-- The reference of a new area, wherever the area goes. -/
theorem Counted.vmaReference (hC : Counted s) (hpos : 0 < (s.file reference.file).ref) (elf : Bool) :
    let r := vmaReference s reference elf
    Works s r.1 t p ∧ ∀ {h : Holder Tid Pid} {s' : Files Tid Pid Pipe Other Private}, Gains r.1 s' h r.2 →
        s'.file = r.1.file → Counted s' := by
  cases elf with
  | true => exact ⟨works_fileHold hpos, fun hg hf => hC.fileHold hpos hg hf⟩
  | false => exact ⟨works_fileDup hpos, fun hg hf => hC.fileDup hpos hg hf⟩

/-- The references a thread can copy. -/
theorem Counted.pos_own (hC : Counted s) (hm : reference ∈ s.locals t ++ s.areas p ++ (s.draft t).areas) :
    0 < (s.file reference.file).ref := by
  rcases mem_append.1 hm with hm | hm
  · rcases mem_append.1 hm with hm | hm
    · exact hC.pos_local hm
    · have hspace : reference ∈ s.references (.space p) := hm
      exact hC.pos hspace
  · have hhand : reference ∈ s.references (.hand t) :=
      mem_append_left _ (mem_append_right _ hm)
    exact hC.pos hhand

theorem Counted.cacheAdd (hC : Counted s) (hpos : 0 < (s.file reference.file).ref)
    (hpipe : (s.file reference.file).pipe = none) (t : Tid) (p : Pid) :
    let s' := Fs.fileHold s reference.file
    Handles s { s' with cache := ⟨reference.file, false⟩ :: s'.cache } t p := by
  refine ⟨(works_fileHold hpos).trans { refl _ t p with cache := fun r hr => ?_ },
    hC.fileHold hpos cacheCons_gains rfl⟩
  rcases mem_cons.1 hr with h | h
  · rw [h, fileHold_eq hpos]
    simp only [setFile, update_self]
    exact .inr hpipe
  · exact .inl h

/-! ## What a thread has in hand -/

section
variable [DecidableEq Tid]

theorem works_keep :
    Works s (s.keep t reference) t p :=
  { refl s t p with
    hands := fun u hu => ⟨update_of_ne hu _ _, rfl⟩
    calls := by
      intro call _ hm
      simp only [keep, update_self]
      exact mem_cons_of_mem _ hm }

variable {reference : Reference}

/-- Only a reference that no call is using is dropped. -/
theorem works_drop (hunused : s.unused t reference) : Works s (s.drop t reference) t p :=
  { refl s t p with
    hands := fun u hu => ⟨update_of_ne hu _ _, rfl⟩
    calls := by
      intro call hcall hm
      have hne : reference ≠ ⟨call.file, true⟩ := by simpa [Files.unused, hcall] using hunused
      simp only [Files.drop, update_self]
      exact (mem_erase_of_ne hne.symm).2 hm }

theorem Counted.openFile (hC : Counted s) (t : Tid) (p : Pid) (inodeAccess openRead openWrite : Bool) :
    Handles s (openFile s t inodeAccess openRead openWrite) t p := by
  unfold Fs.openFile
  cases halloc : fileAlloc s with
  | none => exact ⟨refl s t p, hC⟩
  | some =>
    obtain ⟨hzero, hfree⟩ := fileAlloc_free hC halloc
    refine ⟨(works_setFile (by rw [hfree]; rfl) ?_).trans works_keep, ?_⟩
    · rw [hfree]
      exact nofun
    · exact hC.alloc hzero keep_gains.of_setFile rfl rfl rfl

/-- `fd_get` keeps a reference of its own to the file. -/
theorem Counted.fdGet (hC : Counted s) (t : Tid) (p : Pid) (fd : Fd) : Handles s (fdGet s t p fd) t p := by
  unfold Fs.fdGet
  cases hslot : s.slots p fd with
  | none => exact ⟨refl s t p, hC⟩
  | some =>
    have hpos := hC.pos_slot hslot
    exact ⟨(works_fileDup hpos).trans works_keep, hC.fileDup hpos keep_gains rfl⟩

theorem works_draft (t : Tid) (p : Pid) (draft : Draft) :
    Works s (s.setDraft t draft) t p :=
  { refl s t p with hands := fun _ hu => ⟨rfl, update_of_ne hu _ _⟩ }

/-- A copied descriptor is a reference of the draft. -/
theorem draftSlot_gains (hnone : (s.draft t).slots fd = none) {f : FileId} :
    Gains s (s.setDraft t { s.draft t with slots := update (s.draft t).slots fd (some f) }) (.hand t)
      ⟨f, true⟩ := by
  refine gains_hand (fun q => ?_) (fun u hu => ?_) rfl rfl rfl
  · have hupdate := countP_tableReferences_update (s.draft t).slots fd (some f) q
    rw [hnone] at hupdate
    simp only [slotWeight, Nat.add_zero] at hupdate
    simp only [inHand, setDraft, update_self, countP_append, hupdate]
    omega
  · simp only [inHand, setDraft, update_of_ne hu]

/-- The table of the new process, one descriptor after the other. -/
theorem Counted.forkSlots (hC : Counted s) (t : Tid) (p : Pid)
    (hempty : ∀ fd, (s.draft t).slots fd = none) : Handles s (forkSlots s t p) t p := by
  unfold Fs.forkSlots
  have hnodup := nodup_finRange nofile
  have hempty' : ∀ fd ∈ List.finRange nofile, (s.draft t).slots fd = none := fun fd _ => hempty fd
  clear hempty
  generalize List.finRange nofile = l at hnodup hempty'
  induction l generalizing s with
  | nil => exact ⟨refl s t p, hC⟩
  | cons fd l ih =>
    rw [foldl_cons]
    obtain ⟨hfd, hl⟩ := nodup_cons.1 hnodup
    split
    · exact ih hC hl fun fd' h => hempty' fd' (mem_cons_of_mem _ h)
    rename_i f hslot
    have hpos := hC.pos_slot hslot
    have hnone : ((Fs.fileDup s f).draft t).slots fd = none := by
      rw [fileDup_eq hpos]
      exact hempty' fd mem_cons_self
    have hcopy := hC.fileDup hpos (draftSlot_gains hnone) rfl
    have hworks := (works_fileDup hpos).trans (works_draft t p
      { (Fs.fileDup s f).draft t with slots := update ((Fs.fileDup s f).draft t).slots fd (some f) })
    refine .trans ⟨hworks, hcopy⟩ (ih hcopy hl fun fd' h => ?_)
    have hne : fd' ≠ fd := fun he => hfd (he ▸ h)
    simp only [setDraft, update_self, update_of_ne hne, fileDup_eq hpos]
    exact hempty' fd' (mem_cons_of_mem _ h)

theorem draftCons_gains :
    Gains s (s.setDraft t { s.draft t with areas := reference :: (s.draft t).areas }) (.hand t) reference := by
  refine gains_hand (fun q => ?_) (fun u hu => ?_) rfl rfl rfl
  · simp only [inHand, setDraft, update_self, countP_append, countP_cons_weight]
    omega
  · simp only [inHand, setDraft, update_of_ne hu]

variable (hC : Counted s)
include hC

/-- An area of the draft refers to its file. -/
theorem Counted.draftAlloc (hpos : 0 < (s.file reference.file).ref) (elf : Bool) (t : Tid) (p : Pid) :
    let (s', new) := Fs.vmaReference s reference elf
    Handles s (s'.setDraft t { s'.draft t with areas := new :: (s'.draft t).areas }) t p := by
  obtain ⟨hworks, hcounted⟩ := hC.vmaReference hpos elf
  exact ⟨hworks.trans (works_draft t p _), hcounted draftCons_gains rfl⟩

/-- The reference of an area comes back into the hand. -/
theorem Counted.draftFree (hm : reference ∈ (s.draft t).areas) (p : Pid) :
    Handles s ((s.setDraft t { s.draft t with areas := (s.draft t).areas.erase reference }).keep t reference) t p := by
  refine ⟨(works_draft t p _).trans works_keep, hC.same (fun k q => ?_) rfl⟩
  cases k with
  | table p' | space p' | cache => rfl
  | hand u =>
    by_cases hu : u = t
    · subst hu
      have herase := countP_erase_weight hm q
      simp only [holding, references, inHand, keep, setDraft, update_self,
        countP_append, countP_cons_weight]
      omega
    · simp only [holding, references, inHand, keep, setDraft,
        update_of_ne hu]

theorem Counted.cacheFree (hm : reference ∈ s.cache) (t : Tid) (p : Pid) :
    Handles s (({ s with cache := s.cache.erase reference } : Files Tid Pid Pipe Other Private).keep t reference)
      t p := by
  have hworks : Works s { s with cache := s.cache.erase reference } t p :=
    { refl s t p with cache := fun _ hr => .inl (mem_of_mem_erase hr) }
  exact ⟨hworks.trans works_keep,
    hC.exchange ((cacheErase_gains hm).exchange keep_gains (by simp)) rfl⟩

end

/-! ## Tables and areas -/

section
variable [DecidableEq Pid]

theorem works_setSlot {file : Option FileId}
    {flag : Bool} : Works s (s.setSlot p fd file flag) t p :=
  { refl s t p with slots := fun _ hp => update_of_ne hp _ _ }

/-- `vfs_dup` refers to the file once more. -/
theorem Counted.vfsDup (hC : Counted s) (t : Tid) (p : Pid) (oldfd : Fd) (minimum : Nat) (flag : Bool) :
    Handles s (vfsDup s p oldfd minimum flag) t p := by
  unfold Fs.vfsDup
  split
  · exact ⟨refl s t p, hC⟩
  rename_i f hslot
  have hpos := hC.pos_slot hslot
  cases hfd : freeFd (s.slots p) minimum with
  | none => exact ⟨refl s t p, hC⟩
  | some fd =>
    have hnone : (Fs.fileDup s f).slots p fd = none := by
      rw [fileDup_eq hpos]
      exact freeFd_none hfd
    exact ⟨(works_fileDup hpos).trans works_setSlot,
      hC.fileDup hpos (setSlot_gains hnone) rfl⟩

theorem areaCons_gains :
    Gains s (s.setAreas p (reference :: s.areas p)) (.space p) reference := by
  refine gains_space (fun q => ?_) (fun p' hp => update_of_ne hp _ _) rfl rfl fun _ => rfl
  simp only [setAreas, update_self, countP_cons_weight]

variable {reference : Reference}

theorem areaErase_gains (hm : reference ∈ s.areas p) :
    Gains (s.setAreas p ((s.areas p).erase reference)) s (.space p) reference := by
  refine gains_space (fun q => ?_) (fun p' hp => (update_of_ne hp _ _).symm) rfl rfl fun _ => rfl
  simp only [setAreas, update_self]
  exact countP_erase_weight hm q

theorem works_areas {areas : List Reference} :
    Works s (s.setAreas p areas) t p :=
  { refl s t p with areas := fun _ hp => update_of_ne hp _ _ }

theorem Counted.areaAlloc (hC : Counted s) (hpos : 0 < (s.file reference.file).ref) (elf : Bool) (t : Tid)
    (p : Pid) :
    let (s', new) := Fs.vmaReference s reference elf
    Handles s (s'.setAreas p (new :: s'.areas p)) t p := by
  obtain ⟨hworks, hcounted⟩ := hC.vmaReference hpos elf
  exact ⟨hworks.trans works_areas, hcounted areaCons_gains rfl⟩

end

/-! ## From one to the other -/

variable [DecidableEq Tid] [DecidableEq Pid]

section
variable (hC : Counted s)
include hC

/-- The reference in hand goes into the table. -/
theorem Counted.fdAlloc (hm : ⟨f, true⟩ ∈ s.locals t) (hunused : s.unused t ⟨f, true⟩) (p : Pid) (minimum : Nat)
    (flag : Bool) : Handles s (fdAlloc s t p f minimum flag) t p := by
  unfold Fs.fdAlloc
  cases hfd : freeFd (s.slots p) minimum with
  | none => exact ⟨refl s t p, hC⟩
  | some fd =>
    refine ⟨(works_drop hunused).trans works_setSlot, ?_⟩
    have hslot : (s.drop t ⟨f, true⟩).slots p fd = none := freeFd_none hfd
    exact hC.exchange ((drop_gains hm).exchange (setSlot_gains hslot) (by simp)) rfl

/-- The reference in the table goes into the hand. -/
theorem Counted.vfsClose (t : Tid) (p : Pid) (fd : Fd) : Handles s (vfsClose s t p fd) t p := by
  unfold Fs.vfsClose
  cases hslot : s.slots p fd with
  | none => exact ⟨refl s t p, hC⟩
  | some =>
    refine ⟨works_setSlot.trans works_keep, ?_⟩
    exact hC.exchange ((clearSlot_gains hslot).exchange keep_gains (by simp)) rfl

omit hC in
/-- `vfs_dup_to` is a close of the new descriptor and a copy into the free slot. -/
theorem vfsDupTo_eq {oldfd newfd : Fd} (hne : oldfd ≠ newfd) {replaced : FileId}
    (hold : s.slots p oldfd = some f) (hnew : s.slots p newfd = some replaced) (flag : Bool) :
    vfsDupTo s t p oldfd newfd flag = (fileDup (vfsClose s t p newfd) f).setSlot p newfd (some f) flag := by
  unfold vfsDupTo vfsClose fileDup
  simp only [if_neg hne, hold, hnew]
  by_cases h : (s.file f).ref < 1
  · simp [h, setSlot, keep]
  · simp [h, setSlot, keep, setFile]
    rfl

/-- What was at `newfd` is in hand then. -/
theorem Counted.vfsDupTo (t : Tid) (p : Pid) (oldfd newfd : Fd) (flag : Bool) :
    Handles s (vfsDupTo s t p oldfd newfd flag) t p := by
  by_cases hne : oldfd = newfd
  · unfold Fs.vfsDupTo
    rw [if_pos hne]
    exact ⟨refl s t p, hC⟩
  rcases hold : s.slots p oldfd with _ | f
  · simp only [Fs.vfsDupTo, if_neg hne, hold]
    exact ⟨refl s t p, hC⟩
  cases hnew : s.slots p newfd with
  | none =>
    have hpos := hC.pos_slot hold
    have hnone : (Fs.fileDup s f).slots p newfd = none := by
      rw [fileDup_eq hpos]
      exact hnew
    simp only [Fs.vfsDupTo, if_neg hne, hold, hnew]
    exact ⟨(works_fileDup hpos).trans works_setSlot,
      hC.fileDup hpos (setSlot_gains hnone) rfl⟩
  | some =>
    rw [vfsDupTo_eq hne hold hnew]
    have hclose := hC.vfsClose t p newfd
    have hslots : (Fs.vfsClose s t p newfd).slots p = update (s.slots p) newfd none := by
      simp [Fs.vfsClose, hnew, setSlot, keep]
    have hpos : 0 < ((Fs.vfsClose s t p newfd).file f).ref :=
      hclose.counted.pos_slot (by rw [hslots, update_of_ne hne, hold])
    refine hclose.trans ⟨(works_fileDup hpos).trans works_setSlot, ?_⟩
    have hnone : (Fs.fileDup (Fs.vfsClose s t p newfd) f).slots p newfd = none := by
      rw [fileDup_eq hpos]
      simp [setFile, hslots]
    exact hclose.counted.fileDup hpos (setSlot_gains hnone) rfl

/-- Descriptors taken out of the table, one after the other. -/
theorem Counted.takeSlots (t : Tid) (p : Pid) (which : Fd → Bool) : Handles s (takeSlots s t p which) t p := by
  unfold Fs.takeSlots
  generalize List.finRange nofile = l
  induction l generalizing s with
  | nil => exact ⟨refl s t p, hC⟩
  | cons fd l ih =>
    rw [foldl_cons]
    split
    · have hclose := hC.vfsClose t p fd
      exact hclose.trans (ih hclose.counted)
    · exact ih hC

theorem Counted.areaFree (hm : reference ∈ s.areas p) (t : Tid) :
    Handles s ((s.setAreas p ((s.areas p).erase reference)).keep t reference) t p :=
  ⟨works_areas.trans works_keep,
    hC.exchange ((areaErase_gains hm).exchange keep_gains (by simp)) rfl⟩

/-- The areas of the draft and of the process change places. -/
theorem Counted.execCommit (t : Tid) (p : Pid) :
    Handles s ((s.setAreas p (s.draft t).areas).setDraft t { s.draft t with areas := s.areas p }) t p := by
  suffices hex : Exchanges s ((s.setAreas p (s.draft t).areas).setDraft t { s.draft t with areas := s.areas p })
      (.space p) (.hand t) from ⟨works_areas.trans (works_draft t p _), hC.exchange hex rfl⟩
  refine exchanges_of (by simp) (fun q => ?_) (fun _ _ => rfl) (fun p' hp => ?_) (fun _ => rfl) fun u hu => ?_
  · simp only [holding, references, inHand, setAreas, setDraft, update_self,
      countP_append]
    omega
  · exact update_of_ne (fun he => hp (by rw [he])) _ _
  · simp only [inHand, setAreas, setDraft, update_of_ne hu]

end

end Caffeinix.Fs
