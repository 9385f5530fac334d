import ErbTemplate.Host.Page
import ErbTemplate.Host.Script
import ErbTemplate.Proofs.Json.RoundTrip
import Mathlib.Data.List.Nodup

/-!
# The idioms of the hosts

The same options are written down differently for each host: as the text of a JSON object, with a
colon before the names that are symbols; as properties of an object, named by texts and by symbols;
as a dictionary and keyword arguments.

An `Assignment` says what is asked of each option in each form, and a `Listing` is a row of what it
gives, in any order. Each idiom is made from a listing, and a host that reads it finds the
assignment again (`gives_jsonObject`, `gives_pageValue`, `gives_scriptOptions`). Normalization asks
for nothing else, so the order of a listing and the idiom do not matter
(`Gives.parserOptions_eq`).
-/

set_option autoImplicit false

namespace ErbTemplate

open Json

/-! ## 1. Assignments -/

/-- What is asked of each option in each form: something true, something false, or nothing. -/
abbrev Assignment := KeyForm → OptionKey → Option Bool

/-- The options that an assignment gives, each of them once. -/
structure Listing (assignment : Assignment) where
  row : List ((KeyForm × OptionKey) × Bool)
  mem_iff : ∀ form key value, ((form, key), value) ∈ row ↔ assignment form key = some value
  distinct : (row.map Prod.fst).Nodup

theorem OptionKey.mem_all (key : OptionKey) : key ∈ all := by
  cases key <;> decide

theorem OptionKey.name_injective : Function.Injective name := by
  intro key other h
  have hnames : (all.map name).Nodup := by decide
  exact List.inj_on_of_nodup_map hnames key.mem_all other.mem_all h

namespace Listing

/-- Every option in every form. -/
def slots : List (KeyForm × OptionKey) :=
  OptionKey.all.map (KeyForm.textual, ·) ++ OptionKey.all.map (KeyForm.symbolic, ·)

theorem mem_slots (slot : KeyForm × OptionKey) : slot ∈ slots := by
  obtain ⟨form, key⟩ := slot
  have hkey := List.mem_map_of_mem (f := (form, ·)) key.mem_all
  cases form with
  | textual => exact List.mem_append_left _ hkey
  | symbolic => exact List.mem_append_right _ hkey

/-- The options of an assignment, in the order of their names. -/
def standard (assignment : Assignment) : Listing assignment where
  row := slots.filterMap fun slot => (assignment slot.1 slot.2).map (slot, ·)
  mem_iff := by
    intro form key value
    rw [List.mem_filterMap]
    constructor
    · rintro ⟨slot, -, hslot⟩
      obtain ⟨given, hgiven, heq⟩ := Option.map_eq_some_iff.1 hslot
      cases heq
      exact hgiven
    · intro hvalue
      exact ⟨(form, key), mem_slots _, by rw [hvalue]; rfl⟩
  distinct := by
    have hslots : slots.Nodup := by decide
    rw [List.map_filterMap]
    refine hslots.filterMap ?_
    intro slot other found hslot hother
    simp only [Option.map_map, Option.mem_def, Option.map_eq_some_iff] at hslot hother
    obtain ⟨value, -, rfl⟩ := hslot
    obtain ⟨value', -, heq⟩ := hother
    exact heq.symm

end Listing

/-- A lookup finds what an assignment gives, under the names of all known options. -/
def OptionLookup.Gives (options : OptionLookup) (assignment : Assignment) : Prop :=
  ∀ form key, options form (OptionKey.name key) = assignment form key

namespace OptionLookup.Gives

variable {options other : OptionLookup} {assignment : Assignment}

theorem fetch_eq (h : options.Gives assignment) (h' : other.Gives assignment) (key : OptionKey) :
    options.fetch key = other.fetch key := by
  rw [fetch, fetch, h, h, h', h']

/-- **Parsing depends on the assignment alone.** -/
theorem parserOptions_eq (h : options.Gives assignment) (h' : other.Gives assignment) :
    ParserOptions.normalize (some options) = ParserOptions.normalize (some other) := by
  simp only [ParserOptions.normalize, h.fetch_eq h']

/-- **Extraction depends on the assignment alone.** -/
theorem extractOptions_eq (h : options.Gives assignment) (h' : other.Gives assignment)
    (baseline : ExtractOptions) :
    ExtractOptions.normalize (some options) baseline
      = ExtractOptions.normalize (some other) baseline := by
  simp only [ExtractOptions.normalize, fetchOr, Option.bind_some, h.fetch_eq h']

end OptionLookup.Gives

/-! ## 2. Three idioms -/

/-- The name of an option in a JSON object. -/
def jsonName : KeyForm × OptionKey → String
  | (.textual, key) => key.name
  | (.symbolic, key) => ":" ++ key.name

/-- The options that a text gives, if it is JSON. -/
def OptionLookup.ofText? (text : String) : Option OptionLookup :=
  (read? text.toList).map fun document => (OptionSet.ofJson document).lookup

namespace Listing

variable {assignment : Assignment} (listing : Listing assignment)

/-- An object with a field for each option. -/
def jsonObject : Json :=
  .object (listing.row.map fun (slot, value) => (jsonName slot, .bool value))

/-- An object with a property for each option. -/
def pageValue : PageValue :=
  .object (listing.row.map fun ((form, key), value) => ⟨form, key.name, true, some (.bool value)⟩)

/-- The options in one form, under their names. -/
def inForm (form : KeyForm) : List (String × ScriptValue) :=
  (listing.row.filter fun entry => entry.1.1 = form).map fun ((_, key), value) =>
    (key.name, .bool value)

/-- A dictionary with the textual options, and keyword arguments with the symbolic ones. -/
def scriptOptions : OptionLookup :=
  (ScriptValue.dict (listing.inForm .textual)).options (listing.inForm .symbolic)

end Listing

/-! ## 3. Each host finds the assignment -/

section Finding

variable {α β : Type} {answer : Option Bool}

/-- A search answers what all that it can find answers, if there is anything to be found. -/
theorem find?_bind_eq {row : List α} {wanted : α → Bool} {value : α → Option Bool}
    (hsame : ∀ entry ∈ row, wanted entry = true → value entry = answer)
    (hfound : ∀ given, answer = some given → ∃ entry ∈ row, wanted entry = true) :
    (row.find? wanted).bind value = answer := by
  cases hfind : row.find? wanted with
  | some entry => exact hsame entry (List.mem_of_find?_eq_some hfind) (List.find?_some hfind)
  | none =>
    cases hanswer : answer with
    | none => rfl
    | some given =>
      obtain ⟨entry, hmem, hwanted⟩ := hfound given hanswer
      exact absurd hwanted (List.find?_eq_none.1 hfind entry hmem)

theorem lookup_bind_eq [BEq α] [LawfulBEq α] {row : List (α × β)} {name : α}
    {value : β → Option Bool} (hsame : ∀ given, (name, given) ∈ row → value given = answer)
    (hfound : ∀ truth, answer = some truth → ∃ given, (name, given) ∈ row) :
    (row.lookup name).bind value = answer := by
  cases hlookup : row.lookup name with
  | some given =>
    obtain ⟨front, back, rfl, -⟩ := List.lookup_eq_some_iff.1 hlookup
    exact hsame given (by simp)
  | none =>
    cases hanswer : answer with
    | none => rfl
    | some truth =>
      obtain ⟨given, hmem⟩ := hfound truth hanswer
      have hne := List.lookup_eq_none_iff.1 hlookup _ hmem
      simp at hne

end Finding

namespace OptionSet

theorem lookup_filter_ne (entries : List ((KeyForm × String) × Json))
    {slot other : KeyForm × String}
    (h : slot ≠ other) :
    (entries.filter fun entry => entry.1 ≠ other).lookup slot = entries.lookup slot := by
  induction entries with
  | nil => rfl
  | cons entry entries ih =>
    by_cases hentry : entry.1 = other
    · have hslot : (slot == entry.1) = false := beq_eq_false_iff_ne.2 (hentry ▸ h)
      rw [List.filter_cons_of_neg (by simp [hentry]), ih, List.lookup_cons, hslot]
    · rw [List.filter_cons_of_pos (by simp [hentry]), List.lookup_cons, List.lookup_cons, ih]

theorem lookup_insert (set : OptionSet) (form form' : KeyForm) (name name' : String)
    (value : Json) :
    (set.insert form name value).lookup form' name'
      = if (form', name') = (form, name) then value.truth else set.lookup form' name' := by
  simp only [lookup, insert, List.lookup_cons]
  by_cases hslot : (form', name') = (form, name)
  · rw [if_pos hslot, hslot]
    simp
  · rw [if_neg hslot, beq_eq_false_iff_ne.2 hslot]
    exact congrArg (Option.bind · Json.truth) (lookup_filter_ne set.entries hslot)

/-- Of the fields of an object only those count that name the option. -/
theorem lookup_foldl_insert {fields : List (String × Json)} {set : OptionSet} {form : KeyForm}
    {name : String} {answer : Option Bool}
    (hsame : ∀ field ∈ fields, parseKey field.1 = (form, name) → field.2.truth = answer)
    (hfound : set.lookup form name = answer ∨ ∃ field ∈ fields, parseKey field.1 = (form, name)) :
    (fields.foldl (fun set (key, value) =>
      let (form, name) := parseKey key
      set.insert form name value) set).lookup form name = answer := by
  induction fields generalizing set with
  | nil =>
    rcases hfound with hset | ⟨field, hmem, -⟩
    · exact hset
    · cases hmem
  | cons field fields ih =>
    obtain ⟨hfield, hfields⟩ := List.forall_mem_cons.1 hsame
    rw [List.foldl_cons]
    refine ih hfields ?_
    simp only [lookup_insert]
    split
    next hslot => exact Or.inl (hfield hslot.symm)
    next hslot =>
      rcases hfound with hset | ⟨other, hmem, hother⟩
      · exact Or.inl hset
      · rcases List.mem_cons.1 hmem with rfl | hmem
        · exact absurd hother.symm hslot
        · exact Or.inr ⟨other, hmem, hother⟩

theorem parseKey_jsonName (form : KeyForm) (key : OptionKey) :
    parseKey (jsonName (form, key)) = (form, key.name) := by
  cases form with
  | textual => cases key <;> rfl
  | symbolic => simp [parseKey, jsonName]

end OptionSet

namespace Listing

variable {assignment : Assignment} (listing : Listing assignment)

theorem gives_pageValue : listing.pageValue.options.Gives assignment := by
  intro form key
  refine find?_bind_eq ?_ ?_
  · intro property hmem hwanted
    obtain ⟨⟨⟨form', key'⟩, value⟩, hrow, rfl⟩ := List.mem_map.1 (List.mem_reverse.1 hmem)
    simp only [Bool.true_and, Bool.and_eq_true, beq_iff_eq] at hwanted
    obtain ⟨rfl, hname⟩ := hwanted
    rw [← OptionKey.name_injective hname, (listing.mem_iff _ _ _).1 hrow]
    rfl
  · intro value hvalue
    refine ⟨⟨form, key.name, true, some (.bool value)⟩, ?_, by simp⟩
    exact List.mem_reverse.2 (List.mem_map.2 ⟨_, (listing.mem_iff form key value).2 hvalue, rfl⟩)

theorem gives_scriptOptions : listing.scriptOptions.Gives assignment := by
  have hform : ∀ form key, ((listing.inForm form).lookup (OptionKey.name key)).bind
      ScriptValue.truth = assignment form key := by
    intro form key
    refine lookup_bind_eq ?_ ?_
    · intro given hmem
      obtain ⟨⟨⟨form', key'⟩, value⟩, hrow, heq⟩ := List.mem_map.1 hmem
      obtain ⟨hrow, hform⟩ := List.mem_filter.1 hrow
      obtain ⟨hname, rfl⟩ := Prod.mk.inj heq
      rw [← of_decide_eq_true hform, ← OptionKey.name_injective hname,
        (listing.mem_iff _ _ _).1 hrow]
      rfl
    · intro value hvalue
      refine ⟨.bool value, List.mem_map.2 ⟨((form, key), value), ?_, rfl⟩⟩
      exact List.mem_filter.2 ⟨(listing.mem_iff form key value).2 hvalue, decide_eq_true rfl⟩
  intro form key
  cases form with
  | textual => exact hform .textual key
  | symbolic => exact hform .symbolic key

theorem plain_jsonObject : Plain listing.jsonObject := by
  have hinjective : Function.Injective jsonName := by
    intro slot other h
    have hkeys := congrArg OptionSet.parseKey h
    rw [OptionSet.parseKey_jsonName, OptionSet.parseKey_jsonName] at hkeys
    obtain ⟨hform, hname⟩ := Prod.mk.inj hkeys
    exact Prod.ext hform (OptionKey.name_injective hname)
  refine .object ?_ ?_
  · have hnames := listing.distinct.map hinjective
    rwa [List.map_map] at hnames ⊢
  · intro field hmem
    obtain ⟨entry, -, rfl⟩ := List.mem_map.1 hmem
    exact .bool entry.2

theorem depth_jsonObject : listing.jsonObject.depth ≤ 1 := by
  refine Nat.succ_le_succ (depthOfFields_le ?_)
  intro field hmem
  obtain ⟨entry, -, rfl⟩ := List.mem_map.1 hmem
  exact Nat.le_refl 0

theorem gives_jsonObject : (OptionSet.ofJson listing.jsonObject).lookup.Gives assignment := by
  intro form key
  refine OptionSet.lookup_foldl_insert ?_ ?_
  · intro field hmem hkey
    obtain ⟨⟨⟨form', key'⟩, value⟩, hrow, rfl⟩ := List.mem_map.1 hmem
    rw [OptionSet.parseKey_jsonName] at hkey
    obtain ⟨rfl, hname⟩ := Prod.mk.inj hkey
    rw [← OptionKey.name_injective hname, (listing.mem_iff _ _ _).1 hrow]
    rfl
  · cases hvalue : assignment form key with
    | none => exact Or.inl rfl
    | some value =>
      refine Or.inr ⟨(jsonName (form, key), .bool value), ?_, OptionSet.parseKey_jsonName form key⟩
      exact List.mem_map.2 ⟨_, (listing.mem_iff form key value).2 hvalue, rfl⟩

theorem ofText?_jsonObject :
    OptionLookup.ofText? listing.jsonObject.compact
      = some (OptionSet.ofJson listing.jsonObject).lookup := by
  have hdepth : listing.jsonObject.depth ≤ maxDepth :=
    Nat.le_trans listing.depth_jsonObject (by decide)
  rw [OptionLookup.ofText?, toList_compact, read?_eq,
    readWhole_render listing.plain_jsonObject hdepth]
  rfl

end Listing
end ErbTemplate
