import Concord.Build
import Concord.Proofs.Outcome
import Concord.Proofs.Stored

namespace Concord

namespace Disk

variable {disk after : Disk} {place other : Place} {node : Node} {text : Text} {bytes : Bytes}

theorem lookup_filter_ne (nodes : List (Place × Node)) (other place : Place) :
    (nodes.filter (·.1 ≠ place)).lookup other =
      if other = place then none else nodes.lookup other := by
  induction nodes with
  | nil => simp
  | cons head nodes ih =>
    obtain ⟨name, node⟩ := head
    by_cases hname : name = place
    · subst hname
      rw [List.filter_cons_of_neg (by simp), ih]
      split
      · rfl
      · rw [List.lookup_cons, beq_false_of_ne ‹_›]
    · rw [List.filter_cons_of_pos (by simpa using hname), List.lookup_cons, List.lookup_cons, ih]
      by_cases hother : other = name
      · subst hother
        simp [hname]
      · rw [beq_false_of_ne hother]

theorem at?_of_ne_nil (h : place ≠ []) : disk.at? place = disk.nodes.lookup place := by
  cases place with
  | nil => exact absurd rfl h
  | cons => rfl

theorem at?_put_self (h : place ≠ []) : (disk.put place node).at? place = some node := by
  rw [at?_of_ne_nil h, put, List.lookup_cons, beq_self_eq_true]

theorem at?_put_of_ne (h : other ≠ place) : (disk.put place node).at? other = disk.at? other := by
  cases other with
  | nil => rfl
  | cons name names =>
    rw [at?_of_ne_nil (List.cons_ne_nil _ _), at?_of_ne_nil (List.cons_ne_nil _ _), put,
      List.lookup_cons, beq_false_of_ne h]
    exact (lookup_filter_ne _ _ _).trans (if_neg h)

theorem at?_remove_self (h : place ≠ []) : (disk.remove place).at? place = none := by
  rw [at?_of_ne_nil h]
  exact (lookup_filter_ne _ _ _).trans (if_pos rfl)

theorem at?_remove_of_ne (h : other ≠ place) : (disk.remove place).at? other = disk.at? other := by
  cases other with
  | nil => rfl
  | cons name names => exact (lookup_filter_ne _ _ _).trans (if_neg h)

/-- Paths lead alike on both disks as far as their steps are among those given. -/
structure AgreeOn (disk after : Disk) (steps : List Text) : Prop where
  home : after.home = disk.home
  at? (directory : Place) {step : Text} (h : step ∈ steps) :
    after.at? (directory ++ [step]) = disk.at? (directory ++ [step])

namespace AgreeOn

variable {steps : List Text}

theorem below (h : AgreeOn disk after steps) {step : Text} (hstep : step ∈ steps)
    (directory : Place) : after.below directory step = disk.below directory step := by
  rw [Disk.below, Disk.below, h.at? directory hstep]

theorem follow (h : AgreeOn disk after steps) {step : Text} (hstep : step ∈ steps)
    (directory : Place) : after.follow directory step = disk.follow directory step := by
  rw [Disk.follow, Disk.follow, h.below hstep]

theorem walk (h : AgreeOn disk after steps) (path : Path) {some : List Text}
    (hsome : ∀ step ∈ some, step ∈ steps) : after.walk path some = disk.walk path some := by
  rw [Disk.walk, Disk.walk, h.home]
  generalize (if path.isAbsolute then [] else disk.home) = directory
  induction some generalizing directory with
  | nil => rfl
  | cons step some ih =>
    obtain ⟨hstep, hrest⟩ := List.forall_mem_cons.mp hsome
    rw [List.foldlM_cons, List.foldlM_cons, h.follow hstep]
    exact congrArg _ (funext fun directory => ih hrest directory)

theorem find (h : AgreeOn disk after (Path.steps ⟨text⟩)) : after.find text = disk.find text := by
  have hwalk := h.walk ⟨text⟩ fun _ hstep => List.dropLast_subset _ hstep
  rw [Disk.find, Disk.find, hwalk]
  cases hlast : (Path.steps ⟨text⟩).getLast? with
  | none => rfl
  | some step => simp only [h.below (List.mem_of_getLast? hlast)]

theorem target (h : AgreeOn disk after (Path.steps ⟨text⟩)) :
    after.target text = disk.target text := by
  have hwalk := h.walk ⟨text⟩ fun _ hstep => List.dropLast_subset _ hstep
  rw [Disk.target, Disk.target, hwalk]
  cases hlast : (Path.steps ⟨text⟩).getLast? with
  | none => rfl
  | some step => simp only [h.below (List.mem_of_getLast? hlast)]

end AgreeOn

/-- Where a file may be placed by a path: under a name that is no single or double dot, in a
directory that the path leads to, where no directory stands. -/
theorem target_eq_ok (h : disk.target text = .ok place) :
    Path.check ⟨text⟩ = .ok () ∧ Path.endsInSlash ⟨text⟩ = false ∧
      disk.at? place ≠ some .directory ∧ ∃ directory step,
        disk.walk ⟨text⟩ (Path.steps ⟨text⟩).dropLast = .ok directory ∧
        (Path.steps ⟨text⟩).getLast? = some step ∧ ¬(step = ['.'] ∨ step = ['.', '.']) ∧
        ¬Path.nameLimit < utf8Length step ∧ place = directory ++ [step] := by
  rw [target] at h
  obtain ⟨⟨⟩, hcheck, h⟩ := exists_ok_of_bind h
  obtain ⟨directory, hwalk, h⟩ := exists_ok_of_bind h
  cases hlast : (Path.steps ⟨text⟩).getLast? with
  | none =>
    rw [hlast] at h
    cases h
  | some step =>
    rw [hlast] at h
    simp only at h
    split at h
    · cases h
    · rename_i hdots
      obtain ⟨node, hnode, h⟩ := exists_ok_of_bind h
      rw [below] at hnode
      split at hnode
      · cases hnode
      · rename_i hlimit
        cases hnode
        split at h
        · cases h
        · rename_i hslash
          split at h
          · cases h
          · rename_i hnode
            cases h
            exact ⟨hcheck, Bool.eq_false_iff.mpr hslash, hnode, directory, step, hwalk, rfl,
              hdots, hlimit, rfl⟩

theorem follow_of_directories (hkeep : ∀ place, disk.at? place = some .directory →
    after.at? place = some .directory) {directory next : Place} {step : Text}
    (h : disk.follow directory step = .ok next) : after.follow directory step = .ok next := by
  rw [follow] at h ⊢
  by_cases hdot : step = ['.']
  · rw [if_pos hdot] at h ⊢
    exact h
  · rw [if_neg hdot] at h ⊢
    by_cases hdots : step = ['.', '.']
    · rw [if_pos hdots] at h ⊢
      exact h
    · rw [if_neg hdots] at h ⊢
      obtain ⟨node, hnode, h⟩ := exists_ok_of_bind h
      rw [below] at hnode
      split at hnode
      · cases hnode
      · rename_i hlimit
        cases hnode
        cases hat : disk.at? (directory ++ [step]) with
        | none =>
          rw [hat] at h
          cases h
        | some node =>
          rw [hat] at h
          cases node with
          | file => cases h
          | directory =>
            cases h
            rw [below, if_neg hlimit, hkeep _ hat]
            rfl

/-- A path that leads somewhere leads there as long as no directory is lost. -/
theorem walk_of_directories (hhome : after.home = disk.home)
    (hkeep : ∀ place, disk.at? place = some .directory → after.at? place = some .directory)
    {path : Path} {steps : List Text} (h : disk.walk path steps = .ok place) :
    after.walk path steps = .ok place := by
  rw [walk, hhome]
  rw [walk] at h
  revert h
  generalize (if path.isAbsolute then [] else disk.home) = directory
  intro h
  induction steps generalizing directory with
  | nil => exact h
  | cons step steps ih =>
    rw [List.foldlM_cons] at h ⊢
    obtain ⟨next, hnext, h⟩ := exists_ok_of_bind h
    rw [follow_of_directories hkeep hnext]
    exact ih next h

/-- A file is found by the path by which it was placed. -/
theorem find_of_target (htarget : disk.target text = .ok place) (hhome : after.home = disk.home)
    (hkeep : ∀ place, disk.at? place = some .directory → after.at? place = some .directory)
    (hfile : after.at? place = some (.file bytes)) : after.find text = .ok (.file bytes) := by
  obtain ⟨hcheck, hslash, -, directory, step, hwalk, hlast, hdots, hlimit, rfl⟩ :=
    target_eq_ok htarget
  have htext : text.isEmpty = false := by
    cases text with
    | nil => cases hlast
    | cons => rfl
  have hbelow : after.below directory step = .ok (some (.file bytes)) := by
    rw [below, if_neg hlimit, hfile]
  simp [find, hcheck, htext, walk_of_directories hhome hkeep hwalk, hlast, hdots, hbelow, hslash,
    bind, Except.bind, pure, Except.pure]

/-- Nothing has changed but at one place. -/
structure DiffersAt (disk after : Disk) (place : Place) : Prop where
  home : after.home = disk.home
  elsewhere {other : Place} (h : other ≠ place) : after.at? other = disk.at? other

namespace DiffersAt

variable {later : Disk}

theorem refl (disk : Disk) (place : Place) : DiffersAt disk disk place :=
  ⟨rfl, fun _ => rfl⟩

theorem trans (h : DiffersAt disk after place) (h' : DiffersAt after later place) :
    DiffersAt disk later place :=
  ⟨h'.home.trans h.home, fun hother => (h'.elsewhere hother).trans (h.elsewhere hother)⟩

theorem put (disk : Disk) (place : Place) (node : Node) :
    DiffersAt disk (disk.put place node) place :=
  ⟨rfl, at?_put_of_ne⟩

theorem remove (disk : Disk) (place : Place) : DiffersAt disk (disk.remove place) place :=
  ⟨rfl, at?_remove_of_ne⟩

/-- A change at a free place is undone when what is there is taken away. -/
theorem at?_remove (h : DiffersAt disk after place) (hplace : place ≠ [])
    (hfree : disk.at? place = none) (other : Place) :
    (after.remove place).at? other = disk.at? other := by
  by_cases hother : other = place
  · rw [hother, at?_remove_self hplace, hfree]
  · rw [at?_remove_of_ne hother, h.elsewhere hother]

theorem agreeOn {directory : Place} {name : Text} (h : DiffersAt disk after (directory ++ [name]))
    {steps : List Text} (hname : name ∉ steps) : AgreeOn disk after steps := by
  refine ⟨h.home, fun other step hstep => h.elsewhere fun heq => hname ?_⟩
  have hstepName : step = name := by simpa using congrArg List.getLast? heq
  exact hstepName ▸ hstep

end DiffersAt

end Disk

namespace DiskStep

/-- The place of the one file that a change is about; a move is about two. -/
def place? : DiskStep → Option Place
  | .create place => some place
  | .write place _ _ => some place
  | .sync place => some place
  | .move _ _ => none

/-- What was done of some changes at a moment: the first ones, and perhaps a part of a write. -/
inductive Done : List DiskStep → List DiskStep → Prop where
  | begun (steps : List DiskStep) : Done steps []
  | part (place : Place) (position : Nat) (bytes : Bytes) (count : Nat) (steps : List DiskStep) :
    Done (.write place position bytes :: steps) [.write place position (bytes.take count)]
  | step (step : DiskStep) {steps done : List DiskStep} :
    Done steps done → Done (step :: steps) (step :: done)

theorem Done.forall_place? {P : Option Place → Prop} {steps done : List DiskStep}
    (h : Done steps done) (hsteps : ∀ step ∈ steps, P step.place?) :
    ∀ step ∈ done, P step.place? := by
  induction h with
  | begun steps => exact fun _ hstep => absurd hstep List.not_mem_nil
  | part place position bytes count steps =>
    obtain ⟨hwrite, -⟩ := List.forall_mem_cons.mp hsteps
    exact List.forall_mem_singleton.mpr hwrite
  | step step hdone ih =>
    obtain ⟨hstep, hrest⟩ := List.forall_mem_cons.mp hsteps
    exact List.forall_mem_cons.mpr ⟨hstep, ih hrest⟩

end DiskStep

namespace Disk

variable {disk after : Disk} {place other : Place} {text : Text} {bytes : Bytes} {step : DiskStep}
  {steps : List DiskStep}

theorem DiffersAt.perform (h : disk.perform step = .ok after) (hplace : step.place? = some place) :
    DiffersAt disk after place := by
  unfold Disk.perform at h
  split at h
  · cases h
  · cases step with
    | create =>
      cases h
      cases hplace
      exact put disk place _
    | write =>
      cases hplace
      simp only at h
      split at h
      · cases h
        exact put disk place _
      · cases h
      · cases h
    | sync =>
      cases h
      exact refl disk place
    | move => cases hplace

theorem DiffersAt.performAll (h : ∀ step ∈ steps, step.place? = some place) :
    DiffersAt disk (disk.performAll steps).2 place := by
  induction steps generalizing disk with
  | nil => exact refl disk place
  | cons step steps ih =>
    obtain ⟨hstep, hsteps⟩ := List.forall_mem_cons.mp h
    rw [Disk.performAll]
    split
    · rename_i after hperform
      exact (perform hperform hstep).trans (ih hsteps)
    · exact refl disk place

theorem performAll_snoc_eq_ok {last : DiskStep}
    (h : disk.performAll (steps ++ [last]) = (.ok (), after)) :
    ∃ mid, disk.performAll steps = (.ok (), mid) ∧ mid.perform last = .ok after := by
  induction steps generalizing disk with
  | nil =>
    rw [List.nil_append, performAll] at h
    split at h
    · rename_i mid hlast
      cases h
      exact ⟨disk, rfl, hlast⟩
    · cases h
  | cons step steps ih =>
    rw [List.cons_append, performAll] at h
    rw [performAll]
    split at h
    · exact ih h
    · cases h

/-- A change that is refused leaves what the others before it have made. -/
theorem performAll_snoc_eq_error {last : DiskStep} {error : Error}
    (h : disk.performAll (steps ++ [last]) = (.error error, after)) :
    after = (disk.performAll steps).2 := by
  induction steps generalizing disk with
  | nil =>
    rw [List.nil_append, performAll] at h
    split at h
    · cases h
    · cases h
      rfl
  | cons step steps ih =>
    rw [List.cons_append, performAll] at h
    rw [performAll]
    split at h
    · exact ih h
    · cases h
      rfl

theorem performAll_cons_eq_ok (h : disk.performAll (step :: steps) = (.ok (), after)) :
    ∃ mid, disk.perform step = .ok mid ∧ mid.performAll steps = (.ok (), after) := by
  rw [performAll] at h
  split at h
  · exact ⟨_, ‹_›, h⟩
  · cases h

theorem at?_create (h : disk.perform (.create place) = .ok after) (hplace : place ≠ []) :
    after.at? place = some (.file []) := by
  unfold perform at h
  split at h
  · cases h
  · cases h
    exact at?_put_self hplace

theorem at?_write {position : Nat} {patch : Bytes}
    (h : disk.perform (.write place position patch) = .ok after) (hplace : place ≠ [])
    (hfile : disk.at? place = some (.file bytes)) :
    after.at? place = some (.file (overwrite bytes position patch)) := by
  unfold perform at h
  split at h
  · cases h
  · simp only [hfile] at h
    cases h
    exact at?_put_self hplace

theorem at?_sync (h : disk.perform (.sync place) = .ok after) : after = disk := by
  unfold perform at h
  split at h
  · cases h
  · cases h
    rfl

/-- A move leaves the bytes of the file at the place that the path names. -/
theorem perform_move {source : Place} (h : disk.perform (.move source text) = .ok after)
    (hfile : disk.at? source = some (.file bytes)) :
    ∃ place, disk.target text = .ok place ∧
      after = (disk.remove source).put place (.file bytes) := by
  unfold perform at h
  split at h
  · cases h
  · obtain ⟨place, htarget, h⟩ := exists_ok_of_bind h
    rw [hfile] at h
    cases h
    exact ⟨place, htarget, rfl⟩

theorem overwrite_nil (bytes : Bytes) : overwrite [] 0 bytes = bytes := by
  simp [overwrite]

theorem overwrite_append {old new : Bytes} (h : old.length = new.length) (rest : Bytes) :
    overwrite (old ++ rest) 0 new = new ++ rest := by
  rw [overwrite, List.take_zero, List.nil_append, Nat.zero_add, ← h, List.drop_left]

theorem freshPlace_eq_ok {path : Path} {inUse : List Text}
    (h : disk.freshPlace path inUse = .ok place) :
    ∃ directory name, place = directory ++ [name] ∧ disk.at? place = none ∧ name ∉ inUse := by
  obtain ⟨⟨⟩, -, h⟩ := exists_ok_of_bind h
  obtain ⟨directory, -, h⟩ := exists_ok_of_bind h
  simp only at h
  split at h
  · rename_i name hname
    cases h
    have hfree := List.find?_some hname
    simp only [Bool.and_eq_true, Option.isNone_iff_eq_none, Bool.not_eq_true',
      List.contains_iff_mem, ← Bool.not_eq_true] at hfree
    exact ⟨directory, name, rfl, hfree⟩
  · cases h

end Disk

namespace BuildPlan

variable {disk : Disk} {lexiconPath dictionaryPath : Text} {plan : BuildPlan}

/-- The changes up to the move, which are about the unfinished file only. -/
def writing (unfinished : Place) (header : Header) (payload : Bytes) : List DiskStep := [
  .create unfinished,
  .write unfinished 0 (List.replicate headerSize 0 ++ payload),
  .write unfinished 0 header.encode,
  .sync unfinished]

theorem make_eq_ok (h : make disk lexiconPath dictionaryPath = .ok plan) :
    ∃ lexicon dictionary header directory name, disk.read lexiconPath = .ok lexicon ∧
      Dictionary.ofLexiconBytes lexicon = .ok dictionary ∧ dictionary.header = .ok header ∧
      plan.unfinished = directory ++ [name] ∧ disk.at? plan.unfinished = none ∧
      name ∉ Path.steps ⟨dictionaryPath⟩ ∧
      plan.steps = writing plan.unfinished header dictionary.payload ++
        [.move plan.unfinished dictionaryPath] := by
  obtain ⟨lexicon, hlexicon, h⟩ := exists_ok_of_bind h
  obtain ⟨dictionary, hdictionary, h⟩ := exists_ok_of_bind h
  obtain ⟨header, hheader, h⟩ := exists_ok_of_bind h
  simp only at h
  split at h
  · cases h
  · obtain ⟨place, hplace, h⟩ := exists_ok_of_bind h
    cases h
    obtain ⟨directory, name, hfresh⟩ := Disk.freshPlace_eq_ok (ok_of_mapError hplace)
    exact ⟨lexicon, dictionary, header, directory, name, ok_of_mapError hlexicon, hdictionary,
      hheader, hfresh.1, hfresh.2.1, hfresh.2.2, rfl⟩

end BuildPlan

namespace Disk

variable {disk after : Disk} {lexiconPath dictionaryPath : Text} {unfinished : Place}

/-- Writing the header over the zeros gives the bytes that a straight writer gives. -/
theorem at?_writing {header : Header} {payload : Bytes} (hplace : unfinished ≠ [])
    (h : disk.performAll (BuildPlan.writing unfinished header payload) = (.ok (), after)) :
    after.at? unfinished = some (.file (header.encode ++ payload)) := by
  obtain ⟨created, hcreate, h⟩ := performAll_cons_eq_ok h
  obtain ⟨zeroed, hzeros, h⟩ := performAll_cons_eq_ok h
  obtain ⟨headed, hheader, h⟩ := performAll_cons_eq_ok h
  obtain ⟨synced, hsync, h⟩ := performAll_cons_eq_ok h
  cases h
  have hempty := at?_create hcreate hplace
  have hpayload := at?_write hzeros hplace hempty
  have hwhole := at?_write hheader hplace hpayload
  have hlength : (List.replicate headerSize (0 : UInt8)).length = header.encode.length := by
    rw [List.length_replicate, Header.length_encode]
  rw [at?_sync hsync, hwhole, overwrite_nil, overwrite_append hlength]

theorem place?_writing (unfinished : Place) (header : Header) (payload : Bytes) :
    ∀ step ∈ BuildPlan.writing unfinished header payload, step.place? = some unfinished := by
  simp [BuildPlan.writing, DiskStep.place?]

theorem DiffersAt.writing (disk : Disk) (unfinished : Place) (header : Header) (payload : Bytes) :
    DiffersAt disk (disk.performAll (BuildPlan.writing unfinished header payload)).2 unfinished :=
  .performAll (place?_writing unfinished header payload)

theorem exists_plan_of_ok
    (h : disk.buildDictionary lexiconPath dictionaryPath = (.ok (), after)) :
    ∃ plan, BuildPlan.make disk lexiconPath dictionaryPath = .ok plan ∧
      disk.performAll plan.steps = (.ok (), after) := by
  rw [buildDictionary] at h
  split at h
  · cases h
  · rename_i plan hplan
    split at h
    · rename_i hperform
      cases h
      exact ⟨plan, hplan, hperform⟩
    · cases h

theorem exists_plan_of_error {error : Error}
    (h : disk.buildDictionary lexiconPath dictionaryPath = (.error error, after)) :
    after = disk ∨ ∃ plan left, BuildPlan.make disk lexiconPath dictionaryPath = .ok plan ∧
      disk.performAll plan.steps = (.error error, left) ∧ after = left.remove plan.unfinished := by
  rw [buildDictionary] at h
  split at h
  · cases h
    exact .inl rfl
  · rename_i plan hplan
    split at h
    · cases h
    · rename_i fault left hperform
      cases h
      exact .inr ⟨plan, left, hplan, hperform, rfl⟩

/-- What a build leaves that succeeds: the bytes of the dictionary at the place of its path, and all
else as it was. -/
theorem buildDictionary_ok
    (h : disk.buildDictionary lexiconPath dictionaryPath = (.ok (), after)) :
    ∃ lexicon dictionary bytes place, disk.read lexiconPath = .ok lexicon ∧
      Dictionary.ofLexiconBytes lexicon = .ok dictionary ∧ dictionary.toBytes = .ok bytes ∧
      disk.target dictionaryPath = .ok place ∧ after.find dictionaryPath = .ok (.file bytes) ∧
      after.at? place = some (.file bytes) ∧
      ∀ other, other ≠ place → after.at? other = disk.at? other := by
  obtain ⟨plan, hplan, hperform⟩ := exists_plan_of_ok h
  obtain ⟨lexicon, dictionary, header, directory, name, hlexicon, hdictionary, hheader,
    hunfinished, hfree, hname, hsteps⟩ := BuildPlan.make_eq_ok hplan
  have hne : plan.unfinished ≠ [] := by simp [hunfinished]
  rw [hsteps] at hperform
  obtain ⟨written, hwritten, hmove⟩ := performAll_snoc_eq_ok hperform
  have hwriting : DiffersAt disk written plan.unfinished := by
    have := DiffersAt.writing disk plan.unfinished header dictionary.payload
    rwa [hwritten] at this
  obtain ⟨place, htarget, rfl⟩ := perform_move hmove (at?_writing hne hwritten)
  rw [hunfinished] at hwriting
  rw [(hwriting.agreeOn hname).target] at htarget
  rw [← hunfinished] at hwriting
  obtain ⟨-, -, hnode, target, step, -, -, -, -, hplace⟩ := target_eq_ok htarget
  have hplaceNe : place ≠ [] := by simp [hplace]
  have helsewhere : ∀ other, other ≠ place → ((written.remove plan.unfinished).put place
      (.file (header.encode ++ dictionary.payload))).at? other = disk.at? other :=
    fun other hother => (at?_put_of_ne hother).trans (hwriting.at?_remove hne hfree other)
  have hfile : ((written.remove plan.unfinished).put place
      (.file (header.encode ++ dictionary.payload))).at? place =
        some (.file (header.encode ++ dictionary.payload)) := at?_put_self hplaceNe
  refine ⟨lexicon, dictionary, _, place, hlexicon, hdictionary, ?_, htarget,
    find_of_target htarget hwriting.home (fun other hother => ?_) hfile, hfile, helsewhere⟩
  · rw [Dictionary.toBytes, hheader]
    rfl
  · rwa [helsewhere other (by rintro rfl; exact hnode hother)]

/-- A build that fails leaves everything as it was. -/
theorem buildDictionary_error {error : Error}
    (h : disk.buildDictionary lexiconPath dictionaryPath = (.error error, after)) :
    (∀ place, after.at? place = disk.at? place) ∧ ∀ text, after.find text = disk.find text := by
  suffices after.home = disk.home ∧ ∀ place, after.at? place = disk.at? place from
    ⟨this.2, fun text => AgreeOn.find ⟨this.1, fun directory _ _ => this.2 _⟩⟩
  rcases exists_plan_of_error h with rfl | ⟨plan, left, hplan, hperform, rfl⟩
  · exact ⟨rfl, fun _ => rfl⟩
  · obtain ⟨-, dictionary, header, directory, name, -, -, -, hunfinished, hfree, -, hsteps⟩ :=
      BuildPlan.make_eq_ok hplan
    rw [hsteps] at hperform
    have hwriting := DiffersAt.writing disk plan.unfinished header dictionary.payload
    rw [← performAll_snoc_eq_error hperform] at hwriting
    exact ⟨hwriting.home, hwriting.at?_remove (by simp [hunfinished]) hfree⟩

/-- Up to the move, the path of the dictionary leads to what it led to before, and when the
unfinished file is taken away, everything is as before. -/
theorem performAll_done {plan : BuildPlan} {done : List DiskStep}
    (h : BuildPlan.make disk lexiconPath dictionaryPath = .ok plan)
    (hdone : DiskStep.Done plan.steps done) (hmove : ∀ source text, .move source text ∉ done) :
    (disk.performAll done).2.find dictionaryPath = disk.find dictionaryPath ∧
      ∀ place, ((disk.performAll done).2.remove plan.unfinished).at? place = disk.at? place := by
  obtain ⟨-, dictionary, header, directory, name, -, -, -, hunfinished, hfree, hname, hsteps⟩ :=
    BuildPlan.make_eq_ok h
  have hplaces : ∀ step ∈ done, step.place? = some plan.unfinished ∨ step.place? = none := by
    refine hdone.forall_place? (P := fun place => place = some plan.unfinished ∨ place = none)
      fun step hstep => ?_
    rw [hsteps, List.mem_append, List.mem_singleton] at hstep
    rcases hstep with hstep | rfl
    · exact .inl (place?_writing _ _ _ step hstep)
    · exact .inr rfl
  have hwriting : DiffersAt disk (disk.performAll done).2 plan.unfinished := by
    refine .performAll fun step hstep => (hplaces step hstep).resolve_right fun hnone => ?_
    cases step with
    | move source text => exact hmove source text hstep
    | _ => cases hnone
  refine ⟨AgreeOn.find ?_, hwriting.at?_remove (by simp [hunfinished]) hfree⟩
  rw [hunfinished] at hwriting
  exact hwriting.agreeOn hname

/-- A build that succeeds leaves at the place of its path the bytes of the dictionary, and changes
nothing else. One that fails leaves everything as it was. At every moment before the move, what the
path of the dictionary leads to is as it was, and so is everything once the unfinished file is taken
away. -/
theorem buildDictionary_replaces (disk : Disk) (lexiconPath dictionaryPath : Text) :
    (∀ after, disk.buildDictionary lexiconPath dictionaryPath = (.ok (), after) →
      ∃ lexicon dictionary bytes place, disk.read lexiconPath = .ok lexicon ∧
        Dictionary.ofLexiconBytes lexicon = .ok dictionary ∧ dictionary.toBytes = .ok bytes ∧
        disk.target dictionaryPath = .ok place ∧ after.find dictionaryPath = .ok (.file bytes) ∧
        after.at? place = some (.file bytes) ∧
        ∀ other, other ≠ place → after.at? other = disk.at? other) ∧
    (∀ error after, disk.buildDictionary lexiconPath dictionaryPath = (.error error, after) →
      (∀ place, after.at? place = disk.at? place) ∧ ∀ text, after.find text = disk.find text) ∧
    ∀ plan done, BuildPlan.make disk lexiconPath dictionaryPath = .ok plan →
      DiskStep.Done plan.steps done → (∀ source text, .move source text ∉ done) →
        (disk.performAll done).2.find dictionaryPath = disk.find dictionaryPath ∧
        ∀ place, ((disk.performAll done).2.remove plan.unfinished).at? place = disk.at? place := by
  exact ⟨fun _ => buildDictionary_ok, fun _ _ => buildDictionary_error,
    fun _ _ => performAll_done⟩

/-- A file that stands at the path is replaced, and stays when the move is refused. -/
theorem buildDictionary_replaces_older :
    let nodes : List (Place × Node) := [(["in".toList], .file (encodeUtf8 "a\tnoun".toList)),
      (["out".toList], .file [1, 2, 3])]
    let disk : Disk := { nodes }
    let stubborn : Disk := { nodes, refuses := fun
      | .move _ _ => some .busy
      | _ => none }
    (∃ after bytes, disk.buildDictionary "in".toList "out".toList = (.ok (), after) ∧
      after.find "out".toList = .ok (.file bytes)) ∧
    ∃ after, stubborn.buildDictionary "in".toList "out".toList = (.error (.placing .busy), after) ∧
      after.at? ["out".toList] = some (.file [1, 2, 3]) := by
  intro nodes disk stubborn
  have hok : (disk.buildDictionary "in".toList "out".toList).1 = .ok () := by decide +kernel
  have herror : (stubborn.buildDictionary "in".toList "out".toList).1 =
      .error (.placing .busy) := by decide +kernel
  obtain ⟨hbuilt, -, -⟩ := buildDictionary_replaces disk "in".toList "out".toList
  obtain ⟨-, hkept, -⟩ := buildDictionary_replaces stubborn "in".toList "out".toList
  constructor
  · rcases hbuild : disk.buildDictionary "in".toList "out".toList with ⟨outcome, after⟩
    rw [hbuild] at hok
    subst hok
    obtain ⟨-, -, bytes, -, -, -, -, -, hfind, -, -⟩ := hbuilt after hbuild
    exact ⟨after, bytes, rfl, hfind⟩
  · rcases hbuild : stubborn.buildDictionary "in".toList "out".toList with ⟨outcome, after⟩
    rw [hbuild] at herror
    subst herror
    exact ⟨after, rfl, ((hkept _ after hbuild).1 _).trans rfl⟩

end Disk

end Concord
