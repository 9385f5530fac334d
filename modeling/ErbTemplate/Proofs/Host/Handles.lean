import ErbTemplate.Proofs.Host.Release

/-!
# A handle releases its resource once

A handle can be read and released as often as its owner likes, and at the end of its scope it is
released once more. All that it remembers of this is whether there has been a release. So the state
of a handle is a function of what was done with it (`Handle.behind`), and so is the list of the
events that it has caused (`Handle.told`). One use adds one item to what was done (`run_use`), a row
of uses adds them one by one (`run_useAll`), and the end of the scope finds a handle that has been
released or one that has not (`run_useAndDrop`). A read leaves the handle as it is, so what it gives
is the output of the handle behind it.

**`handle_releases_once`** reads this off for every resource that the engine can put into a handle.
-/

set_option autoImplicit false

namespace ErbTemplate

/-! ## 1. Resources of the engine -/

/-- The resources that the engine puts into handles, and what each of them offers when it gets
    there. -/
inductive Resource.Made : {α : Type} → Resource α → Option α → Prop
  | standIn {α : Type} : Made (.standIn : Resource α) none
  | tokens {source : List Char} {memory : Memory} {list : TokenList}
      (done : (lex source).outcome memory = .ok list) : Made (.live (some list)) (some list)
  | document {source : List Char} {options : ParserOptions} {memory : Memory} {document : Document}
      (done : (parse source options).outcome memory = .ok document) :
      Made (.live (some document)) (some document)
  /-- An extraction of any kind, into a buffer in any state. -/
  | complete {extraction : InPlace TextBuffer Unit} {buffer filled : TextBuffer}
      {memory after : Memory}
      (done : (extraction.on buffer).run memory = ((.ok (), filled), after)) :
      Made (.ofExtraction (.ok ()) filled) (some filled.text)
  /-- What was written before the failure is not offered. -/
  | incomplete {extraction : InPlace TextBuffer Unit} {buffer filled : TextBuffer}
      {memory after : Memory} {cause : Failure}
      (refused : (extraction.on buffer).run memory = ((.error (.failure cause), filled), after)) :
      Made (.ofExtraction (.error (.failure cause)) filled) none

theorem Resource.Made.output_eq {α : Type} {resource : Resource α} {offer : Option α}
    (made : resource.Made offer) : resource.output = offer := by
  cases made <;> rfl

namespace Handle

variable {α : Type}

/-! ## 2. What a handle remembers -/

/-- Uses a handle again and again and leaves its scope; the handle after each use. -/
def useAndDrop (handle : Handle α) (uses : List Use) : Scope α (List (Handle α)) := do
  let handles ← handle.useAll uses
  let _ ← (handles.getLast?.getD handle).release
  return handles

/-- The handle of a resource behind a row of uses. -/
def behind (resource : Resource α) (past : List Use) : Handle α :=
  if .release ∈ past then ⟨none⟩ else own resource

/-- The events that a row of uses has caused. -/
def told (resource : Resource α) (past : List Use) : List (Event α) :=
  if .release ∈ past then [resource.releaseEvent] else []

theorem isReleased_behind (resource : Resource α) (past : List Use) :
    (behind resource past).isReleased = true ↔ .release ∈ past := by
  unfold behind
  split
  next hreleased => exact iff_of_true rfl hreleased
  next hheld => exact iff_of_false Bool.false_ne_true hheld

theorem output_behind (resource : Resource α) (past : List Use) :
    (behind resource past).output = if .release ∈ past then none else resource.output := by
  unfold behind
  split <;> rfl

section Runs

variable (resource : Resource α) (past : List Use) (events : List (Event α)) (memory : Memory)

/-! ## 3. Uses -/

/-- A release is told once: by the first one. -/
theorem run_release :
    ((behind resource past).release.run (events ++ told resource past)).run memory
      = ((⟨none⟩, events ++ [resource.releaseEvent]), memory) := by
  by_cases hreleased : .release ∈ past
  · simp only [behind, told, hreleased, if_true]
    rfl
  · simp only [behind, told, hreleased, if_false, List.append_nil]
    rfl

/-- **One use adds itself to what was done.** -/
theorem run_use (use : Use) :
    (((behind resource past).use use).run (events ++ told resource past)).run memory
      = ((behind resource (past ++ [use]), events ++ told resource (past ++ [use])), memory) := by
  cases use with
  | read =>
    have hmem : .release ∈ past ++ [.read] ↔ .release ∈ past := by simp
    simp only [behind, told, hmem]
    rfl
  | release =>
    have hmem : .release ∈ past ++ [.release] := by simp
    rw [Handle.use, run_release, behind, told, if_pos hmem, if_pos hmem]

/-- **A row of uses adds them one by one.** -/
theorem run_useAll (uses : List Use) :
    (((behind resource past).useAll uses).run (events ++ told resource past)).run memory
      = (((List.range uses.length).map fun i => behind resource (past ++ uses.take (i + 1)),
          events ++ told resource (past ++ uses)), memory) := by
  induction uses generalizing past with
  | nil =>
    rw [List.append_nil]
    rfl
  | cons first others ih =>
    rw [useAll, Scope.run_bind, run_use]
    simp only
    rw [Scope.run_bind, ih (past ++ [first])]
    simp only [Scope.run_pure, List.length_cons, List.range_succ_eq_map, List.map_cons,
      List.map_map, List.append_assoc, List.singleton_append]
    rfl

/-- **The end of the scope releases what is still held.** -/
theorem run_useAndDrop (uses : List Use) :
    (((own resource).useAndDrop uses).run events).run memory
      = (((List.range uses.length).map fun i => behind resource (uses.take (i + 1)),
          events ++ [resource.releaseEvent]), memory) := by
  have hall := run_useAll resource [] events memory uses
  simp only [told, List.not_mem_nil, if_false, List.append_nil, List.nil_append] at hall
  have hown : behind resource [] = own resource := rfl
  have hlast : (((List.range uses.length).map fun i => behind resource (uses.take (i + 1))).getLast?
      ).getD (own resource) = behind resource uses := by
    cases uses with
    | nil => rfl
    | cons first others => simp [List.range_succ]
  rw [hown] at hall
  rw [useAndDrop, Scope.run_bind, hall]
  simp only
  rw [hlast, Scope.run_bind]
  have hdrop := run_release resource uses events memory
  simp only [told] at hdrop
  rw [hdrop]
  rfl

end Runs

theorem release_mem_take_iff (uses : List Use) (i : Nat) :
    .release ∈ uses.take (i + 1) ↔ ∃ j ≤ i, uses[j]? = some .release := by
  rw [List.mem_iff_getElem?]
  constructor
  · rintro ⟨j, hj⟩
    rw [List.getElem?_take] at hj
    split at hj
    next hlt => exact ⟨j, Nat.le_of_lt_succ hlt, hj⟩
    next => cases hj
  · rintro ⟨j, hle, hj⟩
    exact ⟨j, by rw [List.getElem?_take, if_pos (Nat.lt_succ_of_le hle), hj]⟩

end Handle

/-! ## 4. The contract -/

/-- **A handle releases its resource once, whatever is done with it.** From the moment when it takes
    charge to the end of its scope there is one release; the handle counts as released from the
    first release on; until then it gives what the resource offered in the beginning, and after that
    nothing. The release is told as soon as it is asked for. -/
theorem handle_releases_once {α : Type} {resource : Resource α} {offer : Option α}
    (made : resource.Made offer) (uses : List Handle.Use) (events : List (Event α))
    (memory : Memory) :
    ∃ handles : List (Handle α),
      (((Handle.own resource).useAndDrop uses).run events).run memory
          = ((handles, events ++ [resource.releaseEvent]), memory)
        ∧ handles.length = uses.length
        ∧ (∀ (i : Nat) handle, handles[i]? = some handle →
          (handle.isReleased = true ↔ ∃ j ≤ i, uses[j]? = some .release)
            ∧ handle.output = if handle.isReleased then none else offer)
        ∧ ∀ count,
          ((((Handle.own resource).useAll (uses.take count)).run events).run memory).1.2
            = events ++ if .release ∈ uses.take count then [resource.releaseEvent] else [] := by
  refine ⟨_, Handle.run_useAndDrop resource events memory uses, by simp, ?_, ?_⟩
  · intro i handle hhandle
    rw [List.getElem?_map] at hhandle
    obtain ⟨j, hj, rfl⟩ := Option.map_eq_some_iff.1 hhandle
    obtain ⟨_, hplace⟩ := List.getElem?_eq_some_iff.1 hj
    obtain rfl : i = j := by rwa [List.getElem_range] at hplace
    have hreleased := Handle.isReleased_behind resource (uses.take (i + 1))
    refine ⟨hreleased.trans (Handle.release_mem_take_iff uses i), ?_⟩
    rw [Handle.output_behind, made.output_eq]
    simp only [hreleased]
  · intro count
    have hall := Handle.run_useAll resource [] events memory (uses.take count)
    simp only [Handle.told, List.not_mem_nil, if_false, List.append_nil, List.nil_append] at hall
    exact congrArg (fun run => run.1.2) hall

/-- A list of tokens that is read, released, read again and released again before the scope ends. -/
theorem handle_releases_once_twice_asked :
    ∃ list, (lex ['<', 'p', '>']).outcome .standard = .ok list
      ∧ ∃ handles, (((Handle.own (.live (some list))).useAndDrop
            [.read, .release, .read, .release]).run []).run .standard
          = ((handles, [.released]), .standard)
        ∧ ∀ (i : Nat) handle, handles[i]? = some handle →
          handle.output = if i = 0 then some list else none := by
  have hlex : ∃ list, (lex ['<', 'p', '>']).outcome .standard = .ok list :=
    exists_lex (by decide) (Memory.grantsUpTo_standard (by decide))
  obtain ⟨list, hlist⟩ := hlex
  obtain ⟨handles, hrun, -, hsteps, -⟩ :=
    handle_releases_once (.tokens hlist) [.read, .release, .read, .release] [] .standard
  refine ⟨list, hlist, handles, hrun, ?_⟩
  intro i handle hhandle
  obtain ⟨hreleased, houtput⟩ := hsteps i handle hhandle
  rw [houtput]
  cases i with
  | zero =>
    have hheld : handle.isReleased = false := by
      rw [Bool.eq_false_iff, Ne, hreleased]
      rintro ⟨j, hle, hj⟩
      obtain rfl := Nat.le_zero.1 hle
      cases hj
    rw [hheld]
    rfl
  | succ i =>
    rw [hreleased.2 ⟨1, Nat.succ_le_succ (Nat.zero_le i), rfl⟩]
    rfl

end ErbTemplate
