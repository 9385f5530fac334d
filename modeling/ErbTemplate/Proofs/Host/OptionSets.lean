import ErbTemplate.Proofs.Host.Idioms
import Mathlib.Data.List.Induction

/-!
# Option sets are maps

A set of options is filled step by step: a host inserts a value under a name, or it drops the set
and loads a document. What the set answers afterwards should depend on the history alone, and of the
history only on the last value that was given for the name in question. `LastGiven` says which value
that is without any set, and

> **`OptionSet.lookup_ofSteps_iff`** — a value is stored under a name exactly if it is the last one
> that was given for it.

Two key spaces share the keys of a JSON object. One colon in front makes a key symbolic, and the
rest of it is the name, whatever it begins with. So no two keys meet, and a document loses none of
its fields (`OptionSet.entries_ofJson_perm`).

Normalization asks six names in two forms and nothing else. Two of the options for parsing can only
be switched one way, off their default; where a default is all that a switch can leave behind, that
is the same as taking the value (`ParserOptions.settled_normalize`).
-/

set_option autoImplicit false

namespace ErbTemplate

/-! ## 1. The rules -/

/-- What a value says of an option: `null` says nothing, `false` says no, and all else says yes. -/
inductive Json.Says : Json → Option Bool → Prop
  | nothing : Says .null none
  | no : Says (.bool false) (some false)
  | yes {value : Json} : value ≠ .null → value ≠ .bool false → Says value (some true)

/-- A name in a form. -/
abbrev OptionSlot := KeyForm × String

/-- What a host does to a set of options. -/
inductive OptionStep where
  | insert (slot : OptionSlot) (value : Json)
  /-- Drops the set and reads a document. -/
  | load (document : Json)

/-- The set after a step. -/
def OptionSet.step (set : OptionSet) : OptionStep → OptionSet
  | .insert slot value => set.insert slot.1 slot.2 value
  | .load document => ofJson document

/-- The set after a row of steps. -/
def OptionSet.ofSteps (steps : List OptionStep) : OptionSet :=
  steps.foldl step empty

namespace OptionStep

/-- The values that a step gives, in order. -/
def given : OptionStep → List (OptionSlot × Json)
  | insert slot value => [(slot, value)]
  | load (.object fields) => fields.map fun (key, value) => (OptionSet.parseKey key, value)
  | load _ => []

/-- A step that has nothing to do with a name in a form. -/
def Spares (slot : OptionSlot) : OptionStep → Prop
  | insert other _ => slot ≠ other
  | load _ => False

end OptionStep

/-- The last value that a row gives for a name in a form. -/
def LastIn (slot : OptionSlot) (value : Json) (row : List (OptionSlot × Json)) : Prop :=
  ∃ front back, row = front ++ (slot, value) :: back ∧ ∀ entry ∈ back, slot ≠ entry.1

/-- The last value that was given for a name in a form, by a load or by an insertion, with no load
    and no insertion of the same name after it. -/
def LastGiven (steps : List OptionStep) (slot : OptionSlot) (value : Json) : Prop :=
  ∃ before step after, steps = before ++ step :: after ∧ LastIn slot value step.given
    ∧ ∀ later ∈ after, later.Spares slot

/-- A set answers what the last value says that was given, and nothing where there is none. -/
structure OptionSet.Recalls (set : OptionSet) (steps : List OptionStep) : Prop where
  given : ∀ form name value, LastGiven steps (form, name) value →
    value.Says (set.lookup form name)
  absent : ∀ form name, (∀ value, ¬ LastGiven steps (form, name) value) →
    set.lookup form name = none

/-- An insertion is seen under its own name in its own form, and nowhere else. -/
structure OptionSet.InsertsOnly (set : OptionSet) (form : KeyForm) (name : String) (value : Json) :
    Prop where
  here : value.Says ((set.insert form name value).lookup form name)
  elsewhere : ∀ form' name', (form', name') ≠ (form, name) →
    (set.insert form name value).lookup form' name' = set.lookup form' name'

/-- How the keys of JSON objects become names, and that no field is lost. -/
structure OptionSet.KeysKept : Prop where
  symbolic : ∀ name, parseKey (":" ++ name) = (.symbolic, name)
  textual : ∀ key, ¬ [':'] <+: key.toList → parseKey key = (.textual, key)
  apart : ∀ key other, key ≠ other → parseKey key ≠ parseKey other
  fields : ∀ fields : List (String × Json), (fields.map Prod.fst).Nodup →
    (ofJson (.object fields)).entries.Perm
      (fields.map fun (key, value) => (parseKey key, value))

/-- The value of an option: the textual one, else the symbolic one, else a default. -/
inductive OptionLookup.Settles (options : OptionLookup) (key : OptionKey) (default : Bool) :
    Bool → Prop
  | textual {value : Bool} : options .textual key.name = some value →
      Settles options key default value
  | symbolic {value : Bool} : options .textual key.name = none →
      options .symbolic key.name = some value → Settles options key default value
  | absent : options .textual key.name = none → options .symbolic key.name = none →
      Settles options key default default

/-- Every option for parsing has the value that it is given, or its default. -/
structure ParserOptions.SettledBy (result : ParserOptions) (options : OptionLookup) : Prop where
  trackWhitespace : options.Settles .trackWhitespace false result.trackWhitespace
  analyze : options.Settles .analyze true result.analyze
  strict : options.Settles .strict false result.strict

/-- Every option for extraction has the value that it is given, or that of a baseline. -/
structure ExtractOptions.SettledBy (result : ExtractOptions) (options : OptionLookup)
    (baseline : ExtractOptions) : Prop where
  semicolons : options.Settles .semicolons baseline.semicolons result.semicolons
  comments : options.Settles .comments baseline.comments result.comments
  preservePositions :
    options.Settles .preservePositions baseline.preservePositions result.preservePositions

/-- Two option sets that answer alike to the known names, in both forms. -/
def OptionLookup.Agrees (options other : OptionLookup) : Prop :=
  ∀ form key, options form (OptionKey.name key) = other form key.name

/-! ## 2. Values -/

theorem Json.says_truth (value : Json) : value.Says value.truth := by
  cases value with
  | null => exact .nothing
  | bool value =>
    cases value with
    | false => exact .no
    | true => exact .yes (by simp) (by simp)
  | number literal => exact .yes (by simp) (by simp)
  | string value => exact .yes (by simp) (by simp)
  | array items => exact .yes (by simp) (by simp)
  | object fields => exact .yes (by simp) (by simp)

/-! ## 3. Steps -/

/-- A search from the back finds the last value. -/
theorem lookup_reverse_eq_some_iff {slot : OptionSlot} {value : Json}
    {row : List (OptionSlot × Json)} :
    row.reverse.lookup slot = some value ↔ LastIn slot value row := by
  rw [List.lookup_eq_some_iff]
  constructor
  · rintro ⟨back, front, hrow, hback⟩
    refine ⟨front.reverse, back.reverse, ?_, ?_⟩
    · simpa using congrArg List.reverse hrow
    · intro entry hmem
      simpa using hback entry (List.mem_reverse.1 hmem)
  · rintro ⟨front, back, rfl, hback⟩
    refine ⟨back.reverse, front.reverse, by simp, ?_⟩
    intro entry hmem
    simpa using hback entry (List.mem_reverse.1 hmem)

namespace OptionSet

/-- Inserts the values of a row, one after the other. -/
def insertAll (set : OptionSet) (row : List (OptionSlot × Json)) : OptionSet :=
  row.foldl (fun set entry => set.insert entry.1.1 entry.1.2 entry.2) set

theorem ofJson_object (fields : List (String × Json)) :
    ofJson (.object fields) = empty.insertAll (OptionStep.load (.object fields)).given := by
  rw [OptionStep.given, insertAll, List.foldl_map]
  rfl

theorem lookup_entries_insert (set : OptionSet) (slot other : OptionSlot) (value : Json) :
    (set.insert other.1 other.2 value).entries.lookup slot
      = ((other, value) :: set.entries).lookup slot := by
  rw [insert, List.lookup_cons, List.lookup_cons]
  by_cases h : slot = other
  · simp [h]
  · rw [lookup_filter_ne set.entries h]

theorem lookup_entries_insertAll (set : OptionSet) (slot : OptionSlot)
    (row : List (OptionSlot × Json)) :
    (set.insertAll row).entries.lookup slot = (row.reverse ++ set.entries).lookup slot := by
  induction row generalizing set with
  | nil => rfl
  | cons entry row ih =>
    have hrest := ih (set.insert entry.1.1 entry.1.2 entry.2)
    rw [List.lookup_append, lookup_entries_insert, ← List.lookup_append] at hrest
    rw [List.reverse_cons, List.append_assoc]
    exact hrest

/-- What is stored after a load is what the document gives last. -/
theorem lookup_entries_ofJson_iff {document : Json} {slot : OptionSlot} {value : Json} :
    (ofJson document).entries.lookup slot = some value
      ↔ LastIn slot value (OptionStep.load document).given := by
  rw [← lookup_reverse_eq_some_iff]
  cases document with
  | object fields =>
    rw [ofJson_object, lookup_entries_insertAll]
    simp [empty]
  | null | bool | number | string | array => rfl

theorem lastGiven_concat_iff {steps : List OptionStep} {step : OptionStep} {slot : OptionSlot}
    {value : Json} :
    LastGiven (steps ++ [step]) slot value
      ↔ LastIn slot value step.given ∨ step.Spares slot ∧ LastGiven steps slot value := by
  constructor
  · rintro ⟨before, giving, after, hsteps, hlast, hspared⟩
    rcases List.eq_nil_or_concat' after with rfl | ⟨front, latest, rfl⟩
    · obtain ⟨-, hstep⟩ := List.append_inj' hsteps rfl
      obtain rfl := List.singleton_inj.1 hstep
      exact Or.inl hlast
    · right
      have hsplit : steps ++ [step] = (before ++ giving :: front) ++ [latest] := by
        simpa using hsteps
      obtain ⟨rfl, hlatest⟩ := List.append_inj' hsplit rfl
      obtain rfl := List.singleton_inj.1 hlatest
      obtain ⟨hfront, hstep⟩ := List.forall_mem_append.1 hspared
      exact ⟨hstep step (by simp), before, giving, front, rfl, hlast, hfront⟩
  · rintro (hlast | ⟨hspares, before, giving, after, rfl, hlast, hspared⟩)
    · exact ⟨steps, step, [], rfl, hlast, by simp⟩
    · refine ⟨before, giving, after ++ [step], by simp, hlast, ?_⟩
      exact List.forall_mem_append.2 ⟨hspared, by simpa using hspares⟩

theorem lastIn_singleton_iff {slot other : OptionSlot} {value given : Json} :
    LastIn slot value [(other, given)] ↔ slot = other ∧ value = given := by
  rw [← lookup_reverse_eq_some_iff]
  by_cases h : slot = other
  · simp [h, eq_comm]
  · have hne : (slot == other) = false := beq_eq_false_iff_ne.2 h
    simp [List.lookup_cons, h, hne]

/-- **What is stored is the last value that was given.** -/
theorem lookup_ofSteps_iff {steps : List OptionStep} {slot : OptionSlot} {value : Json} :
    (ofSteps steps).entries.lookup slot = some value ↔ LastGiven steps slot value := by
  induction steps using List.reverseRecOn with
  | nil =>
    constructor
    · intro h
      cases h
    · rintro ⟨before, step, after, hsteps, -⟩
      simp at hsteps
  | append_singleton steps step ih =>
    rw [lastGiven_concat_iff, ofSteps, List.foldl_append, ← ofSteps]
    cases step with
    | load document =>
      show (ofJson document).entries.lookup slot = some value ↔ _
      rw [lookup_entries_ofJson_iff]
      simp [OptionStep.Spares]
    | insert other given =>
      show ((ofSteps steps).insert other.1 other.2 given).entries.lookup slot = some value ↔ _
      rw [lookup_entries_insert, List.lookup_cons, OptionStep.given, lastIn_singleton_iff, ← ih]
      by_cases h : slot = other
      · simp [h, OptionStep.Spares, eq_comm]
      · have hne : (slot == other) = false := beq_eq_false_iff_ne.2 h
        simp [h, hne, OptionStep.Spares]

theorem recalls_ofSteps (steps : List OptionStep) : (ofSteps steps).Recalls steps := by
  constructor
  · intro form name value hlast
    rw [lookup, lookup_ofSteps_iff.2 hlast]
    exact value.says_truth
  · intro form name hnone
    have hlookup : (ofSteps steps).entries.lookup (form, name) = none := by
      rw [Option.eq_none_iff_forall_ne_some]
      intro value hvalue
      exact hnone value (lookup_ofSteps_iff.1 hvalue)
    rw [lookup, hlookup]
    rfl

/-- A load drops what was inserted, and the `null` in it says nothing under the textual name. -/
example :
    (ofSteps [.insert (.textual, "strict") (.bool false),
      .load (.object [("strict", .null), (":strict", .string "")])]).lookup.fetch .strict
        = some true := by decide

theorem insertsOnly (set : OptionSet) (form : KeyForm) (name : String) (value : Json) :
    set.InsertsOnly form name value := by
  constructor
  · rw [lookup_insert, if_pos rfl]
    exact value.says_truth
  · intro form' name' hother
    rw [lookup_insert, if_neg hother]

/-! ## 4. Keys -/

theorem parseKey_colon (name : String) : parseKey (":" ++ name) = (.symbolic, name) := by
  simp [parseKey]

theorem parseKey_of_not_colon {key : String} (h : ¬ [':'] <+: key.toList) :
    parseKey key = (.textual, key) := by
  unfold parseKey
  split
  next name hkey =>
    rw [hkey] at h
    simp at h
  next => rfl

/-- Every key is of one of two kinds. -/
theorem parseKey_cases (key : String) :
    (∃ name, key = ":" ++ name ∧ parseKey key = (.symbolic, name))
      ∨ parseKey key = (.textual, key) := by
  by_cases h : [':'] <+: key.toList
  · left
    obtain ⟨name, hname⟩ := h
    have hkey : key = ":" ++ String.ofList name := by
      apply String.toList_inj.1
      simp [← hname]
    exact ⟨_, hkey, hkey ▸ parseKey_colon _⟩
  · exact Or.inr (parseKey_of_not_colon h)

theorem parseKey_injective : Function.Injective parseKey := by
  intro key other h
  rcases parseKey_cases key with ⟨name, hkey, hslot⟩ | hslot <;>
    rcases parseKey_cases other with ⟨name', hother, hslot'⟩ | hslot' <;>
    rw [hslot, hslot'] at h
  · rw [hkey, hother, (Prod.mk.inj h).2]
  · cases h
  · cases h
  · exact (Prod.mk.inj h).2

/-- Values under distinct names are all kept, the newest in front. -/
theorem entries_insertAll {set : OptionSet} {row : List (OptionSlot × Json)}
    (h : ((set.entries ++ row).map Prod.fst).Nodup) :
    (set.insertAll row).entries = row.reverse ++ set.entries := by
  induction row generalizing set with
  | nil => rfl
  | cons entry row ih =>
    obtain ⟨⟨form, name⟩, value⟩ := entry
    rw [List.map_append, List.map_cons, List.nodup_middle, List.nodup_cons] at h
    obtain ⟨hnew, hothers⟩ := h
    have hset : (set.insert form name value).entries = ((form, name), value) :: set.entries := by
      rw [insert, List.filter_eq_self.2]
      intro other hmem
      have hkept : other.1 ∈ set.entries.map Prod.fst := List.mem_map_of_mem hmem
      have hne : other.1 ≠ (form, name) := by
        intro heq
        rw [heq] at hkept
        exact hnew (List.mem_append_left _ hkept)
      simpa using hne
    have hnodup : (((set.insert form name value).entries ++ row).map Prod.fst).Nodup := by
      rw [hset, List.cons_append, List.map_cons, List.nodup_cons, List.map_append]
      exact ⟨hnew, hothers⟩
    calc (set.insertAll (((form, name), value) :: row)).entries
      _ = row.reverse ++ (set.insert form name value).entries := ih hnodup
      _ = (((form, name), value) :: row).reverse ++ set.entries := by rw [hset]; simp

/-- **A document loses none of its fields.** -/
theorem entries_ofJson_perm {fields : List (String × Json)} (h : (fields.map Prod.fst).Nodup) :
    (ofJson (.object fields)).entries.Perm
      (fields.map fun (key, value) => (parseKey key, value)) := by
  have hslots :
      ((empty.entries ++ (OptionStep.load (.object fields)).given).map Prod.fst).Nodup := by
    have hmapped := h.map parseKey_injective
    simpa [empty, OptionStep.given, Function.comp_def] using hmapped
  rw [ofJson_object, entries_insertAll hslots, empty, List.append_nil]
  exact List.reverse_perm _

theorem keysKept : KeysKept where
  symbolic := parseKey_colon
  textual _ := parseKey_of_not_colon
  apart _ _ := parseKey_injective.ne
  fields _ := entries_ofJson_perm

end OptionSet

/-! ## 5. Normalization -/

namespace OptionLookup

variable {options other : OptionLookup}

theorem settles_getD_fetch (options : OptionLookup) (key : OptionKey) (default : Bool) :
    options.Settles key default ((options.fetch key).getD default) := by
  cases htextual : options .textual key.name with
  | some value =>
    have hfetch : options.fetch key = some value := by simp [fetch, htextual]
    rw [hfetch]
    exact .textual htextual
  | none =>
    have hfetch : options.fetch key = options .symbolic key.name := by simp [fetch, htextual]
    rw [hfetch]
    cases hsymbolic : options .symbolic key.name with
    | some value => exact .symbolic htextual hsymbolic
    | none => exact .absent htextual hsymbolic

/-- A switch that leaves a default in one direction only takes any value. -/
theorem switch_eq_getD (given : Option Bool) (default : Bool) :
    (if given = some (!default) then !default else default) = given.getD default := by
  cases given with
  | none => simp
  | some value => cases value <;> cases default <;> rfl

end OptionLookup

theorem ParserOptions.settled_normalize (options : OptionLookup) :
    (ParserOptions.normalize (some options)).SettledBy options where
  trackWhitespace := by
    have h := options.settles_getD_fetch .trackWhitespace false
    rwa [← OptionLookup.switch_eq_getD] at h
  analyze := by
    have h := options.settles_getD_fetch .analyze true
    rwa [← OptionLookup.switch_eq_getD] at h
  strict := options.settles_getD_fetch .strict false

theorem ExtractOptions.settled_normalize (options : OptionLookup) (baseline : ExtractOptions) :
    (ExtractOptions.normalize (some options) baseline).SettledBy options baseline where
  semicolons := options.settles_getD_fetch .semicolons _
  comments := options.settles_getD_fetch .comments _
  preservePositions := options.settles_getD_fetch .preservePositions _

/-! ## 6. The theorem -/

/-- **Option sets behave as maps, and normalization reads the known names alone.** -/
theorem option_sets_are_maps :
    (∀ steps, (OptionSet.ofSteps steps).Recalls steps)
      ∧ (∀ (set : OptionSet) form name value, set.InsertsOnly form name value)
      ∧ OptionSet.KeysKept
      ∧ (∀ options other : OptionLookup, options.Agrees other →
          ParserOptions.normalize (some options) = ParserOptions.normalize (some other)
            ∧ ∀ baseline, ExtractOptions.normalize (some options) baseline
              = ExtractOptions.normalize (some other) baseline)
      ∧ (∀ options : OptionLookup, (ParserOptions.normalize (some options)).SettledBy options
          ∧ ∀ baseline,
            (ExtractOptions.normalize (some options) baseline).SettledBy options baseline)
      ∧ ParserOptions.normalize none = {}
      ∧ ∀ baseline, ExtractOptions.normalize none baseline = baseline := by
  refine ⟨OptionSet.recalls_ofSteps, OptionSet.insertsOnly, OptionSet.keysKept, ?_, ?_, rfl, ?_⟩
  · intro options other hagrees
    have hself : other.Gives fun form key => other form key.name := fun form key => rfl
    have hsame : options.Gives fun form key => other form key.name := hagrees
    exact ⟨hsame.parserOptions_eq hself, hsame.extractOptions_eq hself⟩
  · intro options
    exact ⟨ParserOptions.settled_normalize options, ExtractOptions.settled_normalize options⟩
  · intro baseline
    rfl

end ErbTemplate
