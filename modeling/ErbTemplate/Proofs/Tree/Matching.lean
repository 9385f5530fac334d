import ErbTemplate.Tree.Analysis
import Mathlib.Data.List.Induction
import Mathlib.Order.Bounds.Basic

/-!
# The matching of a word of brackets

Two brackets of a word are *partners* when the first opens, the second closes, and what stands
between them is balanced (`Bracket.Partners`). `Matching.ofWord` never looks for partners: it goes
over the word once with a stack. That it finds the same is shown by giving the shape of a word from
what the run has come to,

> `B ) B ) … ) B ( B ( … ( B`   with every `B` balanced,

where the closing brackets are the orphans and the opening ones wait (`Matching.Reads`). Partners
never show up, because a balanced word leaves a run where it was (`Matching.run_balanced`); all
other brackets do, because everything inside of a `B` has a partner.
-/

set_option autoImplicit false

namespace ErbTemplate

/-! ## 1. Balanced words and partners -/

namespace Bracket

/-- Words in which every bracket has a partner. -/
inductive Balanced : List Bracket → Prop
  | nil : Balanced []
  | neutral {word : List Bracket} : Balanced word → Balanced (.neutral :: word)
  | nest {inside word : List Bracket} :
      Balanced inside → Balanced word → Balanced (.opens :: (inside ++ .closes :: word))

/-- The brackets at two places of a word are partners. -/
def Partners (word : List Bracket) (first second : Nat) : Prop :=
  ∃ before inside after, word = before ++ .opens :: (inside ++ .closes :: after)
    ∧ Balanced inside ∧ first = before.length ∧ second = before.length + 1 + inside.length

/-- The bracket at a place opens, and has no partner. -/
def OpensAlone (word : List Bracket) (place : Nat) : Prop :=
  word[place]? = some .opens ∧ ∀ second, ¬ Partners word place second

/-- The bracket at a place closes, and has no partner. -/
def ClosesAlone (word : List Bracket) (place : Nat) : Prop :=
  word[place]? = some .closes ∧ ∀ first, ¬ Partners word first place

theorem Balanced.append {front back : List Bracket} (h : Balanced front) (h' : Balanced back) :
    Balanced (front ++ back) := by
  induction h with
  | nil => exact h'
  | neutral _ ih => exact .neutral ih
  | nest hinside _ _ ih =>
    rw [List.cons_append, List.append_assoc, List.cons_append]
    exact .nest hinside ih

theorem Balanced.pair {inside : List Bracket} (h : Balanced inside) :
    Balanced (.opens :: (inside ++ [.closes])) :=
  .nest h .nil

theorem Partners.append_right {word : List Bracket} {first second : Nat}
    (h : Partners word first second) (back : List Bracket) :
    Partners (word ++ back) first second := by
  obtain ⟨before, inside, after, rfl, hinside, rfl, rfl⟩ := h
  exact ⟨before, inside, after ++ back, by simp, hinside, rfl, rfl⟩

theorem Partners.append_left {word : List Bracket} {first second : Nat}
    (h : Partners word first second) (front : List Bracket) :
    Partners (front ++ word) (front.length + first) (front.length + second) := by
  obtain ⟨before, inside, after, rfl, hinside, rfl, rfl⟩ := h
  exact ⟨front ++ before, inside, after, by simp, hinside, by simp, by simp; omega⟩

/-- A bracket at a place has a partner, if it is no neutral one. -/
def Paired (word : List Bracket) (place : Nat) : Prop :=
  (word[place]? = some .opens → ∃ second, Partners word place second)
    ∧ (word[place]? = some .closes → ∃ first, Partners word first place)

theorem Paired.append_right {word : List Bracket} {place : Nat} (h : Paired word place)
    (hplace : place < word.length) (back : List Bracket) : Paired (word ++ back) place := by
  rw [Paired, List.getElem?_append_left hplace]
  refine ⟨fun hopens => ?_, fun hcloses => ?_⟩
  · obtain ⟨second, hpartners⟩ := h.1 hopens
    exact ⟨second, hpartners.append_right back⟩
  · obtain ⟨first, hpartners⟩ := h.2 hcloses
    exact ⟨first, hpartners.append_right back⟩

theorem Paired.append_left {word : List Bracket} {place : Nat} (h : Paired word place)
    (front : List Bracket) : Paired (front ++ word) (front.length + place) := by
  have hget : (front ++ word)[front.length + place]? = word[place]? := by
    rw [List.getElem?_append_right (Nat.le_add_right _ _), Nat.add_sub_cancel_left]
  rw [Paired, hget]
  refine ⟨fun hopens => ?_, fun hcloses => ?_⟩
  · obtain ⟨second, hpartners⟩ := h.1 hopens
    exact ⟨_, hpartners.append_left front⟩
  · obtain ⟨first, hpartners⟩ := h.2 hcloses
    exact ⟨_, hpartners.append_left front⟩

/-- **Every bracket of a balanced word has a partner.** -/
theorem Balanced.paired {word : List Bracket} (h : Balanced word) (place : Nat) :
    Paired word place := by
  induction h generalizing place with
  | nil => simp [Paired]
  | neutral _ ih =>
    cases place with
    | zero => simp [Paired]
    | succ place =>
      have hrest := (ih place).append_left [.neutral]
      rwa [List.length_singleton, Nat.add_comm] at hrest
  | @nest inside word hinside _ ihinside ih =>
    have hpair : Partners (.opens :: (inside ++ .closes :: word)) 0 (0 + 1 + inside.length) :=
      ⟨[], inside, word, rfl, hinside, rfl, rfl⟩
    -- the place is the opening bracket, inside, the closing bracket, or behind it
    rcases Nat.lt_trichotomy place (inside.length + 1) with hlt | rfl | hgt
    · cases place with
      | zero => exact ⟨fun _ => ⟨_, hpair⟩, fun hcloses => (by cases hcloses)⟩
      | succ place =>
        have hin :=
          ((ihinside place).append_right (by omega) (.closes :: word)).append_left [.opens]
        rwa [List.length_singleton, Nat.add_comm] at hin
    · have hget : (Bracket.opens :: (inside ++ .closes :: word))[inside.length + 1]?
          = some .closes := by simp
      rw [Paired, hget]
      refine ⟨fun hopens => (by cases hopens), fun _ => ⟨0, ?_⟩⟩
      rwa [Nat.zero_add, Nat.add_comm] at hpair
    · have hbehind :=
        (ih (place - (inside.length + 2))).append_left (.opens :: (inside ++ [.closes]))
      have hplace : (Bracket.opens :: (inside ++ [.closes])).length + (place - (inside.length + 2))
          = place := by
        simp
        omega
      rw [hplace] at hbehind
      simpa using hbehind

end Bracket

/-! ## 2. Runs -/

namespace Matching

/-- Takes in a word whose first bracket stands at a place. -/
def run (matching : Matching) (word : List Bracket) (place : Nat) : Matching :=
  (word.zipIdx place).foldl step matching

theorem run_cons (matching : Matching) (bracket : Bracket) (word : List Bracket) (place : Nat) :
    matching.run (bracket :: word) place
      = (matching.step (bracket, place)).run word (place + 1) := rfl

theorem run_append (matching : Matching) (front back : List Bracket) (place : Nat) :
    matching.run (front ++ back) place
      = (matching.run front place).run back (place + front.length) := by
  rw [run, List.zipIdx_append, List.foldl_append, Nat.add_comm]
  rfl

theorem ofWord_append (front back : List Bracket) :
    ofWord (front ++ back) = (ofWord front).run back front.length := by
  have h := run_append ⟨[], []⟩ front back 0
  rwa [Nat.zero_add] at h

theorem ofWord_concat (word : List Bracket) (bracket : Bracket) :
    ofWord (word ++ [bracket]) = (ofWord word).step (bracket, word.length) :=
  ofWord_append word [bracket]

/-- **A balanced word leaves a run where it was.** -/
theorem run_balanced {word : List Bracket} (h : Bracket.Balanced word) (matching : Matching)
    (place : Nat) : matching.run word place = matching := by
  induction h generalizing matching place with
  | nil => rfl
  | neutral _ ih =>
    rw [run_cons]
    exact ih matching (place + 1)
  | @nest inside word _ _ ihinside ih =>
    -- the closing bracket takes the place of its partner off the stack again
    rw [run_cons, run_append, ihinside, run_cons]
    exact ih matching _

/-- Places go down from the newest to the oldest, and are places before the end. -/
def Descends (places : List Nat) (stop : Nat) : Prop :=
  places.Pairwise (fun first second => second < first) ∧ ∀ place ∈ places, place < stop

theorem Descends.mono {places : List Nat} {stop later : Nat} (h : Descends places stop)
    (hle : stop ≤ later) : Descends places later :=
  ⟨h.1, fun place hmem => Nat.lt_of_lt_of_le (h.2 place hmem) hle⟩

theorem Descends.cons {places : List Nat} {stop : Nat} (h : Descends places stop) :
    Descends (stop :: places) (stop + 1) :=
  ⟨.cons h.2 h.1, List.forall_mem_cons.2 ⟨Nat.lt_succ_self stop, (h.mono (Nat.le_succ stop)).2⟩⟩

theorem Descends.tail {places : List Nat} {first stop : Nat} (h : Descends (first :: places) stop) :
    Descends places stop :=
  ⟨h.1.of_cons, (List.forall_mem_cons.1 h.2).2⟩

theorem descends_step {matching : Matching} {place : Nat}
    (hwaiting : Descends matching.waiting place) (horphans : Descends matching.orphans place)
    (bracket : Bracket) :
    Descends (matching.step (bracket, place)).waiting (place + 1)
      ∧ Descends (matching.step (bracket, place)).orphans (place + 1) := by
  obtain ⟨waiting, orphans⟩ := matching
  have hlater := Nat.le_succ place
  cases bracket with
  | opens => exact ⟨hwaiting.cons, horphans.mono hlater⟩
  | neutral => exact ⟨hwaiting.mono hlater, horphans.mono hlater⟩
  | closes =>
    cases waiting with
    | nil => exact ⟨hwaiting.mono hlater, horphans.cons⟩
    | cons first waiting => exact ⟨hwaiting.tail.mono hlater, horphans.mono hlater⟩

theorem descends_ofWord (word : List Bracket) :
    Descends (ofWord word).waiting word.length ∧ Descends (ofWord word).orphans word.length := by
  induction word using List.reverseRecOn with
  | nil => exact ⟨⟨.nil, by simp [ofWord]⟩, ⟨.nil, by simp [ofWord]⟩⟩
  | append_singleton word bracket ih =>
    rw [ofWord_concat, List.length_append, List.length_singleton]
    exact descends_step ih.1 ih.2 bracket

/-- What a run adds are places that it went over. -/
theorem mem_of_mem_run (word : List Bracket) (matching : Matching) (start : Nat) {place : Nat}
    (hplace : place < start) :
    (place ∈ (matching.run word start).waiting → place ∈ matching.waiting)
      ∧ (place ∈ (matching.run word start).orphans → place ∈ matching.orphans) := by
  induction word generalizing matching start with
  | nil => exact ⟨id, id⟩
  | cons bracket word ih =>
    rw [run_cons]
    obtain ⟨hwaiting, horphans⟩ := ih (matching.step (bracket, start)) (start + 1) (by omega)
    obtain ⟨waiting, orphans⟩ := matching
    cases bracket with
    | opens =>
      refine ⟨fun hmem => ?_, horphans⟩
      rcases List.mem_cons.1 (hwaiting hmem) with rfl | hmem
      · omega
      · exact hmem
    | neutral => exact ⟨hwaiting, horphans⟩
    | closes =>
      cases waiting with
      | nil =>
        refine ⟨hwaiting, fun hmem => ?_⟩
        rcases List.mem_cons.1 (horphans hmem) with rfl | hmem
        · omega
        · exact hmem
      | cons first waiting => exact ⟨fun hmem => List.mem_cons_of_mem _ (hwaiting hmem), horphans⟩

/-- **Partners are forgotten.** -/
theorem not_mem_of_partners {word : List Bracket} {first second : Nat}
    (h : Bracket.Partners word first second) :
    first ∉ (ofWord word).waiting ∧ second ∉ (ofWord word).orphans := by
  obtain ⟨before, inside, after, rfl, hinside, rfl, rfl⟩ := h
  -- the run over the two and what is between them changes nothing
  have hsplit : before ++ .opens :: (inside ++ .closes :: after)
      = (before ++ .opens :: (inside ++ [.closes])) ++ after := by simp
  have hrun : ofWord (before ++ .opens :: (inside ++ [.closes])) = ofWord before := by
    rw [ofWord_append, run_balanced hinside.pair]
  obtain ⟨hwaiting, horphans⟩ := descends_ofWord before
  rw [hsplit, ofWord_append, hrun]
  have hlength : (before ++ Bracket.opens :: (inside ++ [.closes])).length
      = before.length + inside.length + 2 := by
    simp
    omega
  rw [hlength]
  constructor
  · intro hmem
    have hearlier := (mem_of_mem_run after (ofWord before) (before.length + inside.length + 2)
      (by omega)).1 hmem
    exact Nat.lt_irrefl _ (hwaiting.2 _ hearlier)
  · intro hmem
    have hearlier := (mem_of_mem_run after (ofWord before) (before.length + inside.length + 2)
      (by omega)).2 hmem
    have hlt := horphans.2 _ hearlier
    omega

/-! ## 3. The shape of a word -/

/-- The shape of a word that a run has come to a matching with. -/
inductive Reads : List Bracket → Matching → Prop
  | done {inside : List Bracket} : Bracket.Balanced inside → Reads inside ⟨[], []⟩
  | orphan {word inside : List Bracket} {orphans : List Nat} :
      Reads word ⟨[], orphans⟩ → Bracket.Balanced inside →
        Reads (word ++ .closes :: inside) ⟨[], word.length :: orphans⟩
  | waits {word inside : List Bracket} {waiting orphans : List Nat} :
      Reads word ⟨waiting, orphans⟩ → Bracket.Balanced inside →
        Reads (word ++ .opens :: inside) ⟨word.length :: waiting, orphans⟩

namespace Reads

variable {word : List Bracket} {matching : Matching}

theorem append_balanced {back : List Bracket} (h : Reads word matching)
    (hback : Bracket.Balanced back) : Reads (word ++ back) matching := by
  cases h with
  | done hinside => exact .done (hinside.append hback)
  | orphan hword hinside =>
    rw [List.append_assoc, List.cons_append]
    exact .orphan hword (hinside.append hback)
  | waits hword hinside =>
    rw [List.append_assoc, List.cons_append]
    exact .waits hword (hinside.append hback)

theorem step (h : Reads word matching) (bracket : Bracket) :
    Reads (word ++ [bracket]) (matching.step (bracket, word.length)) := by
  cases bracket with
  | opens => exact .waits h .nil
  | neutral => exact h.append_balanced (.neutral .nil)
  | closes =>
    cases h with
    | done hinside => exact .orphan (.done hinside) .nil
    | orphan hword hinside => exact .orphan (.orphan hword hinside) .nil
    | waits hword hinside =>
      -- the innermost opening bracket has found its partner
      rw [List.append_assoc, List.cons_append]
      exact hword.append_balanced hinside.pair

theorem ofWord (word : List Bracket) : Reads word (Matching.ofWord word) := by
  induction word using List.reverseRecOn with
  | nil => exact .done .nil
  | append_singleton word bracket ih =>
    rw [ofWord_concat]
    exact ih.step bracket

/-- What waits opens, and what is an orphan closes. -/
theorem getElem?_of_mem (h : Reads word matching) :
    (∀ place ∈ matching.waiting, word[place]? = some .opens)
      ∧ ∀ place ∈ matching.orphans, word[place]? = some .closes := by
  have hstays : ∀ {word back : List Bracket} {bracket : Bracket} {place : Nat},
      word[place]? = some bracket → (word ++ back)[place]? = some bracket := by
    intro word back bracket place hget
    rwa [List.getElem?_append_left (List.getElem?_eq_some_iff.1 hget).1]
  induction h with
  | done _ => exact ⟨fun _ hmem => (by cases hmem), fun _ hmem => (by cases hmem)⟩
  | orphan _ _ ih =>
    refine ⟨fun _ hmem => (by cases hmem), List.forall_mem_cons.2 ⟨by simp, ?_⟩⟩
    exact fun place hmem => hstays (ih.2 place hmem)
  | waits _ _ ih =>
    refine ⟨List.forall_mem_cons.2 ⟨by simp, ?_⟩, fun place hmem => hstays (ih.2 place hmem)⟩
    exact fun place hmem => hstays (ih.1 place hmem)

theorem paired_behind {front inside : List Bracket} (h : Bracket.Balanced inside)
    (bracket : Bracket) {place : Nat} (hplace : front.length < place) :
    Bracket.Paired (front ++ bracket :: inside) place := by
  have hin := (h.paired (place - (front.length + 1))).append_left (front ++ [bracket])
  have heq : (front ++ [bracket]).length + (place - (front.length + 1)) = place := by
    simp
    omega
  rw [heq] at hin
  simpa using hin

/-- What the matching does not show is paired. -/
theorem cases_of_lt (h : Reads word matching) {place : Nat} (hplace : place < word.length) :
    place ∈ matching.waiting ∨ place ∈ matching.orphans ∨ Bracket.Paired word place := by
  induction h generalizing place with
  | done hinside => exact Or.inr (Or.inr (hinside.paired place))
  | @orphan word inside orphans _ hinside ih =>
    rcases Nat.lt_trichotomy place word.length with hlt | rfl | hgt
    · rcases ih hlt with hmem | hmem | hpaired
      · cases hmem
      · exact Or.inr (Or.inl (List.mem_cons_of_mem _ hmem))
      · exact Or.inr (Or.inr (hpaired.append_right hlt _))
    · exact Or.inr (Or.inl List.mem_cons_self)
    · exact Or.inr (Or.inr (paired_behind hinside _ hgt))
  | @waits word inside waiting orphans _ hinside ih =>
    rcases Nat.lt_trichotomy place word.length with hlt | rfl | hgt
    · rcases ih hlt with hmem | hmem | hpaired
      · exact Or.inl (List.mem_cons_of_mem _ hmem)
      · exact Or.inr (Or.inl hmem)
      · exact Or.inr (Or.inr (hpaired.append_right hlt _))
    · exact Or.inl List.mem_cons_self
    · exact Or.inr (Or.inr (paired_behind hinside _ hgt))

end Reads

/-- **The openings that wait are those without a partner.** -/
theorem mem_waiting_iff (word : List Bracket) (place : Nat) :
    place ∈ (ofWord word).waiting ↔ Bracket.OpensAlone word place := by
  have hreads := Reads.ofWord word
  constructor
  · intro hmem
    refine ⟨hreads.getElem?_of_mem.1 place hmem, fun second hpartners => ?_⟩
    exact (not_mem_of_partners hpartners).1 hmem
  · rintro ⟨hopens, halone⟩
    rcases hreads.cases_of_lt (List.getElem?_eq_some_iff.1 hopens).1 with hmem | hmem | hpaired
    · exact hmem
    · have hcloses := hreads.getElem?_of_mem.2 place hmem
      rw [hopens] at hcloses
      cases hcloses
    · obtain ⟨second, hpartners⟩ := hpaired.1 hopens
      exact absurd hpartners (halone second)

/-- **The orphans are the closings without a partner.** -/
theorem mem_orphans_iff (word : List Bracket) (place : Nat) :
    place ∈ (ofWord word).orphans ↔ Bracket.ClosesAlone word place := by
  have hreads := Reads.ofWord word
  constructor
  · intro hmem
    refine ⟨hreads.getElem?_of_mem.2 place hmem, fun first hpartners => ?_⟩
    exact (not_mem_of_partners hpartners).2 hmem
  · rintro ⟨hcloses, halone⟩
    rcases hreads.cases_of_lt (List.getElem?_eq_some_iff.1 hcloses).1 with hmem | hmem | hpaired
    · have hopens := hreads.getElem?_of_mem.1 place hmem
      rw [hcloses] at hopens
      cases hopens
    · exact hmem
    · obtain ⟨first, hpartners⟩ := hpaired.2 hcloses
      exact absurd hpartners (halone first)

/-- **Nothing is left over exactly if the word is balanced.** -/
theorem ofWord_eq_empty_iff (word : List Bracket) :
    ofWord word = ⟨[], []⟩ ↔ Bracket.Balanced word := by
  constructor
  · intro hnone
    have hreads := Reads.ofWord word
    rw [hnone] at hreads
    cases hreads with
    | done hinside => exact hinside
  · intro hbalanced
    exact run_balanced hbalanced ⟨[], []⟩ 0

/-! ## 4. Numbers -/

theorem length_waiting_add (word : List Bracket) :
    (ofWord word).waiting.length + word.count .closes
      = word.count .opens + (ofWord word).orphans.length := by
  induction word using List.reverseRecOn with
  | nil => rfl
  | append_singleton word bracket ih =>
    rw [ofWord_concat, List.count_append, List.count_append]
    generalize ofWord word = matching at ih ⊢
    obtain ⟨waiting, orphans⟩ := matching
    cases bracket with
    | opens =>
      simp [step] at ih ⊢
      omega
    | neutral => simpa [step] using ih
    | closes =>
      cases waiting with
      | nil =>
        simp [step] at ih ⊢
        omega
      | cons first waiting =>
        simp [step] at ih ⊢
        omega

/-- A closing bracket becomes an orphan only when nothing waits. -/
theorem orphans_step (matching : Matching) (bracket : Bracket) (place : Nat) :
    (matching.step (bracket, place)).orphans = matching.orphans
      ∨ (matching.step (bracket, place)).waiting = []
        ∧ (matching.step (bracket, place)).orphans = place :: matching.orphans := by
  obtain ⟨waiting, orphans⟩ := matching
  cases bracket with
  | opens => exact Or.inl rfl
  | neutral => exact Or.inl rfl
  | closes =>
    cases waiting with
    | nil => exact Or.inr ⟨rfl, rfl⟩
    | cons first waiting => exact Or.inl rfl

theorem length_orphans_le_run (word : List Bracket) (matching : Matching) (place : Nat) :
    matching.orphans.length ≤ (matching.run word place).orphans.length := by
  induction word generalizing matching place with
  | nil => exact Nat.le_refl _
  | cons bracket word ih =>
    rw [run_cons]
    refine Nat.le_trans ?_ (ih (matching.step (bracket, place)) (place + 1))
    rcases orphans_step matching bracket place with heq | ⟨-, heq⟩
    · rw [heq]
    · rw [heq]
      exact Nat.le_succ _

theorem exists_front_orphans (word : List Bracket) :
    ∃ front, front <+: word
      ∧ (ofWord word).orphans.length = front.count .closes - front.count .opens := by
  induction word using List.reverseRecOn with
  | nil => exact ⟨[], List.prefix_refl [], rfl⟩
  | append_singleton word bracket ih =>
    rcases orphans_step (ofWord word) bracket word.length with heq | ⟨hwaiting, -⟩
    · obtain ⟨front, hfront, hlength⟩ := ih
      refine ⟨front, hfront.trans (List.prefix_append word [bracket]), ?_⟩
      rw [ofWord_concat, heq, hlength]
    · -- the front up to a new orphan has as many closings too many as there are orphans
      refine ⟨word ++ [bracket], List.prefix_refl _, ?_⟩
      have hsum := length_waiting_add (word ++ [bracket])
      rw [ofWord_concat] at hsum ⊢
      rw [hwaiting, List.length_nil] at hsum
      omega

/-- **There are as many orphans as some front of the word has closings too many, at most.** -/
theorem isGreatest_length_orphans (word : List Bracket) :
    IsGreatest
      { excess | ∃ front, front <+: word ∧ excess = front.count .closes - front.count .opens }
      (ofWord word).orphans.length := by
  refine ⟨exists_front_orphans word, ?_⟩
  rintro excess ⟨front, ⟨back, rfl⟩, rfl⟩
  have hsum := length_waiting_add front
  have hle := length_orphans_le_run back (ofWord front) front.length
  rw [ofWord_append]
  omega

end Matching
end ErbTemplate
