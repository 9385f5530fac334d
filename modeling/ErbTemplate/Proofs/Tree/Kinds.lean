import ErbTemplate.Proofs.Tree.Account
import ErbTemplate.Proofs.Tree.Repetition

/-!
# Kinds follow patterns

What an ERB tag does is said by its opening and its code. Two of the tests on the code are patterns,
with parts that may be missing and with several places where a match could begin. Their meaning is
that *some* split of the code fits (`OpensDo`, `EndsItself`); the library runs over the code once
and never goes back. That this misses no split has two reasons:

* a bar is not white space, so where the white space behind a `do` ends is not a choice, and neither
  is where the parameters end (`isBlockTail_iff`);
* every `do` is tried, and the character before it is carried along (`opensBlockAfter_iff`).

The first word of a code is its longest front part of ASCII letters, digits and underscores
(`firstWord_eq_iff`), and a table says which kind goes with what (`ErbKind.Fits`).
-/

set_option autoImplicit false

namespace ErbTemplate

open Text

/-! ## 1. The patterns -/

/-- A text of nothing but white space. -/
def Blanks (text : List Char) : Prop :=
  ∀ c ∈ text, isBlank c = true

/-- What is left of a text without the white space around it. -/
def Trimmed (text inner : List Char) : Prop :=
  ∃ front back, text = front ++ inner ++ back ∧ Blanks front ∧ Blanks back
    ∧ (∀ c, inner.head? = some c → isBlank c = false)
    ∧ ∀ c, inner.getLast? = some c → isBlank c = false

/-- Parameters of a block: none, or a text between two bars without a bar in it. -/
inductive Parameters : List Char → Prop
  | none : Parameters []
  | some {names : List Char} : '|' ∉ names → Parameters ('|' :: (names ++ ['|']))

/-- What may stand behind a `do`: white space, parameters, white space. -/
def DoTail (text : List Char) : Prop :=
  ∃ gap parameters rest, text = gap ++ parameters ++ rest
    ∧ Blanks gap ∧ Parameters parameters ∧ Blanks rest

/-- A code ends with a `do` and its parameters, and no word runs into the `do`. -/
def OpensDo (code : List Char) : Prop :=
  ∃ front tail, code = front ++ "do".toList ++ tail
    ∧ (∀ c, front.getLast? = some c → isWordChar c = false) ∧ DoTail tail

/-- A code ends with an `end` that is all of it, or stands behind white space or a semicolon. -/
def EndsItself (code : List Char) : Prop :=
  ∃ front rest, code = front ++ "end".toList ++ rest
    ∧ (∀ c, front.getLast? = some c → isBlank c = true ∨ c = ';') ∧ Blanks rest

/-- Nothing but ASCII letters, digits and underscores. -/
def IsWord (word : List Char) : Prop :=
  ∀ c ∈ word, c.isAlphanum = true ∨ c = '_'

/-- The longest front part of a code that is a word. -/
structure LeadingWord (code word : List Char) : Prop where
  front : word <+: code
  isWord : IsWord word
  longest : ∀ other, other <+: code → IsWord other → other.length ≤ word.length

/-- A code begins with one of these words. -/
def LeadsWith (words : List String) (code : List Char) : Prop :=
  ∃ word ∈ words, LeadingWord code word.toList

/-- An opening of code, not of a comment and not of an escaped tag. -/
def OpensCode (opening : List Char) : Prop :=
  opening ≠ "<%#".toList ∧ opening ≠ "<%%".toList

/-- Code that neither opens a block nor is printed. -/
def RunsOnly (opening code : List Char) : Prop :=
  OpensCode opening ∧ ¬ OpensDo code ∧ ¬ "<%=".toList <+: opening

/-- What a tag with this opening and this code does. -/
def ErbKind.Fits (opening code : List Char) : ErbKind → Prop
  | comment => opening = "<%#".toList
  | escaped => opening = "<%%".toList
  | block => OpensCode opening ∧ OpensDo code
  | output => OpensCode opening ∧ ¬ OpensDo code ∧ "<%=".toList <+: opening
  | blockEnd => RunsOnly opening code ∧ LeadsWith ["end"] code
  | control => RunsOnly opening code ∧ LeadsWith (openerWords ++ branchWords) code
  | statement => RunsOnly opening code ∧ ¬ LeadsWith ("end" :: openerWords ++ branchWords) code

/-- What is said of the tag at a place of a document is what its opening and its code say. -/
structure ErbTag.Understood (source : List Char) (document : Document) (place : Nat)
    (tag : ErbTag) : Prop where
  code : Trimmed (tag.content.text source) (tag.code source)
  kind : ∀ kind, tag.kind = some kind ↔ kind.Fits (tag.mark.text source) (tag.code source)
  /-- A conditional or a loop waits for an `end` unless it has one itself. -/
  scope : tag.kind = some .control →
    ((document.brackets source)[place]? = some .opens
      ↔ LeadsWith openerWords (tag.code source) ∧ ¬ EndsItself (tag.code source))

/-! ## 2. Runs and white space -/

/-- A run ends at the first character that does not belong to it. -/
theorem dropWhile_append_of_head {p : Char → Bool} {front back : List Char}
    (hfront : ∀ c ∈ front, p c = true) (hback : ∀ c, back.head? = some c → p c = false) :
    (front ++ back).dropWhile p = back := by
  rw [List.dropWhile_append_of_pos hfront]
  cases back with
  | nil => rfl
  | cons c back => simp [hback c rfl]

theorem exists_append_dropWhile (p : Char → Bool) (text : List Char) :
    ∃ front, text = front ++ text.dropWhile p ∧ (∀ c ∈ front, p c = true)
      ∧ ∀ c, (text.dropWhile p).head? = some c → p c = false := by
  refine ⟨text.takeWhile p, List.takeWhile_append_dropWhile.symm, ?_, ?_⟩
  · intro c hmem
    exact List.mem_takeWhile_imp hmem
  · intro c hc
    have h := List.head?_dropWhile_not p text
    rw [hc] at h
    simpa using h

theorem blanks_iff {text : List Char} : Blanks text ↔ allBlank text = true :=
  List.all_eq_true.symm

theorem Blanks.reverse {text : List Char} (h : Blanks text) : Blanks text.reverse := by
  intro c hmem
  exact h c (List.mem_reverse.1 hmem)

theorem trimmed_trim (text : List Char) : Trimmed text (trim text) := by
  obtain ⟨front, hfront, hblanks, hhead⟩ := exists_append_dropWhile isBlank text
  obtain ⟨back, hback, hblanks', hlast⟩ :=
    exists_append_dropWhile isBlank (text.dropWhile isBlank).reverse
  have hinner : text.dropWhile isBlank = trim text ++ back.reverse := by
    have h := congrArg List.reverse hback
    rwa [List.reverse_reverse, List.reverse_append] at h
  refine ⟨front, back.reverse, ?_, hblanks, Blanks.reverse hblanks', ?_, ?_⟩
  · rw [List.append_assoc, ← hinner]
    exact hfront
  · intro c hc
    refine hhead c ?_
    rw [hinner, List.head?_append, hc]
    rfl
  · intro c hc
    refine hlast c ?_
    rwa [trim, trimEnd, List.getLast?_reverse] at hc

/-! ## 3. The two patterns -/

/-- Where parameters end is not a choice: at the first bar. -/
theorem closesAtBar_iff {inside : List Char} :
    (match inside.dropWhile (· != '|') with
      | [] => false
      | _ :: after => allBlank after) = true
      ↔ ∃ names after, inside = names ++ '|' :: after ∧ '|' ∉ names ∧ Blanks after := by
  constructor
  · intro h
    obtain ⟨names, hinside, hnames, hbar⟩ := exists_append_dropWhile (· != '|') inside
    split at h
    next => cases h
    next bar after hafter =>
      rw [hafter] at hinside hbar
      have hfirst : bar = '|' := by simpa using hbar bar rfl
      refine ⟨names, after, hfirst ▸ hinside, ?_, blanks_iff.2 h⟩
      intro hmem
      simpa using hnames '|' hmem
  · rintro ⟨names, after, rfl, hnames, hafter⟩
    have hdrop : (names ++ '|' :: after).dropWhile (· != '|') = '|' :: after := by
      apply dropWhile_append_of_head
      · intro c hmem
        have hne : c ≠ '|' := fun heq => hnames (heq ▸ hmem)
        simpa using hne
      · intro c hc
        cases hc
        rfl
    rw [hdrop]
    exact blanks_iff.1 hafter

theorem isBlockTail_iff {text : List Char} : isBlockTail text = true ↔ DoTail text := by
  constructor
  · intro h
    obtain ⟨gap, hgap, hblanks, -⟩ := exists_append_dropWhile isBlank text
    unfold isBlockTail at h
    split at h
    next hrest =>
      rw [hrest] at hgap
      exact ⟨gap, [], [], by simpa using hgap, hblanks, .none, by simp [Blanks]⟩
    next c inside hrest =>
      rw [hrest] at hgap
      rw [Bool.and_eq_true, beq_iff_eq] at h
      obtain ⟨rfl, hcloses⟩ := h
      obtain ⟨names, after, rfl, hnames, hafter⟩ := closesAtBar_iff.1 hcloses
      exact ⟨gap, _, after, by simpa using hgap, hblanks, .some hnames, hafter⟩
  · rintro ⟨gap, parameters, rest, rfl, hgap, hparameters, hrest⟩
    cases hparameters with
    | none =>
      have hall : Blanks (gap ++ [] ++ rest) := by
        rw [List.append_nil]
        exact List.forall_mem_append.2 ⟨hgap, hrest⟩
      rw [isBlockTail, List.dropWhile_eq_nil_iff.2 hall]
    | @some names hnames =>
      -- a bar is not white space, so the gap ends right before it
      have hdrop : (gap ++ ('|' :: (names ++ ['|'])) ++ rest).dropWhile isBlank
          = '|' :: (names ++ '|' :: rest) := by
        rw [List.append_assoc, dropWhile_append_of_head hgap]
        · simp
        · intro c hc
          cases hc
          decide
      rw [isBlockTail, hdrop]
      simp only [beq_self_eq_true, Bool.true_and]
      exact closesAtBar_iff.2 ⟨names, rest, rfl, hnames, hrest⟩

/-- What stands before a place is the end of the front, or what stands before the front. -/
theorem getLast?_cons_or (c : Char) (front : List Char) (previous : Option Char) :
    (c :: front).getLast?.or previous = front.getLast?.or (some c) := by
  rw [List.getLast?_cons]
  cases front.getLast? <;> rfl

/-- A scan that knows the character before it finds a `do` wherever there is one. -/
theorem opensBlockAfter_iff {previous : Option Char} {text : List Char} :
    opensBlockAfter previous text = true ↔ ∃ front tail, text = front ++ "do".toList ++ tail
      ∧ (∀ c, front.getLast?.or previous = some c → isWordChar c = false) ∧ DoTail tail := by
  induction text generalizing previous with
  | nil => simp [opensBlockAfter]
  | cons c text ih =>
    rw [opensBlockAfter, Bool.or_eq_true, ih]
    constructor
    · rintro (h | ⟨front, tail, rfl, hbefore, htail⟩)
      · simp only [Bool.and_eq_true] at h
        obtain ⟨⟨hdo, hprevious⟩, htail⟩ := h
        obtain ⟨tail, hsplit⟩ := List.isPrefixOf_iff_prefix.1 hdo
        obtain ⟨rfl, rfl⟩ := List.cons.inj hsplit
        refine ⟨[], tail, rfl, ?_, isBlockTail_iff.1 htail⟩
        intro last hlast
        have hlast : previous = some last := hlast
        simpa [hlast] using hprevious
      · refine ⟨c :: front, tail, rfl, ?_, htail⟩
        intro last hlast
        rw [getLast?_cons_or] at hlast
        exact hbefore last hlast
    · rintro ⟨front, tail, hsplit, hbefore, htail⟩
      cases front with
      | nil =>
        left
        obtain ⟨rfl, rfl⟩ := List.cons.inj hsplit
        have hprevious : previous.any isWordChar = false := by
          cases previous with
          | none => rfl
          | some last => exact hbefore last rfl
        simp only [Bool.and_eq_true]
        refine ⟨⟨List.isPrefixOf_iff_prefix.2 ⟨tail, rfl⟩, ?_⟩, isBlockTail_iff.2 htail⟩
        rw [hprevious]
        rfl
      | cons first front =>
        right
        obtain ⟨rfl, rfl⟩ := List.cons.inj hsplit
        refine ⟨front, tail, rfl, ?_, htail⟩
        intro last hlast
        rw [← getLast?_cons_or] at hlast
        exact hbefore last hlast

theorem opensBlock_iff {code : List Char} : opensBlock code = true ↔ OpensDo code := by
  rw [opensBlock, opensBlockAfter_iff]
  simp only [Option.or_none]
  rfl

theorem endsWithEnd_iff {code : List Char} : endsWithEnd code = true ↔ EndsItself code := by
  have hreverse : (trimEnd code).reverse = code.reverse.dropWhile isBlank := by
    rw [trimEnd, List.reverse_reverse]
  rw [endsWithEnd, hreverse]
  constructor
  · intro h
    obtain ⟨rest, hrest, hblanks, -⟩ := exists_append_dropWhile isBlank code.reverse
    split at h
    next before hbefore =>
      rw [hbefore] at hrest
      have hcode := congrArg List.reverse hrest
      refine ⟨before.reverse, rest.reverse, by simpa using hcode, ?_, Blanks.reverse hblanks⟩
      intro c hc
      rw [List.getLast?_reverse] at hc
      simpa [hc] using h
    next => cases h
  · rintro ⟨front, rest, rfl, hbefore, hrest⟩
    have hdrop : (front ++ "end".toList ++ rest).reverse.dropWhile isBlank
        = 'd' :: 'n' :: 'e' :: front.reverse := by
      rw [List.reverse_append, dropWhile_append_of_head (Blanks.reverse hrest)]
      · simp
      · intro c hc
        simp at hc
        subst hc
        decide
    rw [hdrop]
    simp only [List.head?_reverse]
    cases hlast : front.getLast? with
    | none => rfl
    | some c => simpa using hbefore c hlast

/-! ## 4. The first word -/

theorem isWord_iff {word : List Char} :
    IsWord word ↔ ∀ c ∈ word, (c.isAlphanum || c == '_') = true := by
  simp [IsWord]

theorem leadingWord_firstWord (code : List Char) : LeadingWord code (firstWord code) := by
  refine ⟨List.takeWhile_prefix _, ?_, ?_⟩
  · refine isWord_iff.2 fun c hmem => ?_
    exact List.mem_takeWhile_imp (p := fun c => c.isAlphanum || c == '_') hmem
  · rintro other ⟨rest, rfl⟩ hword
    rw [firstWord, List.takeWhile_append_of_pos (isWord_iff.1 hword), List.length_append]
    exact Nat.le_add_right _ _

/-- Two front parts of a code that are as long as each other are the same. -/
theorem LeadingWord.unique {code word other : List Char} (h : LeadingWord code word)
    (hother : LeadingWord code other) : word = other := by
  have hle := hother.longest word h.front h.isWord
  have hge := h.longest other hother.front hother.isWord
  have hfront := List.prefix_of_prefix_length_le h.front hother.front hle
  exact hfront.eq_of_length (Nat.le_antisymm hle hge)

theorem firstWord_eq_iff {code word : List Char} :
    firstWord code = word ↔ LeadingWord code word := by
  have hleading := leadingWord_firstWord code
  constructor
  · rintro rfl
    exact hleading
  · intro h
    exact hleading.unique h

theorem isOneOf_firstWord_iff {words : List String} {code : List Char} :
    isOneOf words (firstWord code) = true ↔ LeadsWith words code := by
  rw [isOneOf, List.any_eq_true]
  refine exists_congr fun word => and_congr_right fun _ => ?_
  rw [beq_iff_eq, ← firstWord_eq_iff, eq_comm]

theorem leadsWith_cons_iff {word : String} {words : List String} {code : List Char} :
    LeadsWith (word :: words) code ↔ firstWord code = word.toList ∨ LeadsWith words code := by
  rw [LeadsWith, List.exists_mem_cons_iff, ← firstWord_eq_iff]
  rfl

theorem leadsWith_singleton_iff {word : String} {code : List Char} :
    LeadsWith [word] code ↔ firstWord code = word.toList := by
  rw [leadsWith_cons_iff, or_iff_left]
  rintro ⟨other, hmem, -⟩
  cases hmem

theorem isOneOf_append (words others : List String) (word : List Char) :
    isOneOf (words ++ others) word = (isOneOf words word || isOneOf others word) :=
  List.any_append

/-! ## 5. Kinds -/

theorem Opening.text_injective {opening other : Opening} (h : opening.text = other.text) :
    opening = other := by
  cases opening <;> cases other <;> first | rfl | cases h

theorem Opening.opensCode_text_iff {opening : Opening} :
    OpensCode opening.text ↔ opening.isCode = true := by
  cases opening <;> simp [OpensCode, text, isCode]

theorem Opening.prefix_text_iff {opening : Opening} :
    "<%=".toList <+: opening.text ↔ opening.isOutput = true := by
  cases opening <;> decide

namespace ErbKind

variable {opening : Opening} {code : List Char} {kind : ErbKind}

/-- The order in which the tests on code are made. -/
theorem classify_of_isCode (h : opening.isCode = true) (code : List Char) :
    classify opening code
      = if opensBlock code then block
        else if opening.isOutput then output
        else if firstWord code = "end".toList then blockEnd
        else if isOneOf (openerWords ++ branchWords) (firstWord code) then control
        else statement := by
  rw [isOneOf_append]
  cases opening <;> first | rfl | cases h

theorem runsOnly_iff : RunsOnly opening.text code
    ↔ opening.isCode = true ∧ ¬ opensBlock code = true ∧ ¬ opening.isOutput = true := by
  rw [RunsOnly, Opening.opensCode_text_iff, Opening.prefix_text_iff, opensBlock_iff]

/-- The kind that a tag is given fits. -/
theorem fits_classify (opening : Opening) (code : List Char) :
    (classify opening code).Fits opening.text code := by
  cases hcode : opening.isCode with
  | false => cases opening <;> first | rfl | cases hcode
  | true =>
    have hopens := Opening.opensCode_text_iff.2 hcode
    rw [classify_of_isCode hcode]
    split_ifs with hblock houtput hend hword
    · exact ⟨hopens, opensBlock_iff.1 hblock⟩
    · exact ⟨hopens, mt opensBlock_iff.2 hblock, Opening.prefix_text_iff.2 houtput⟩
    · exact ⟨runsOnly_iff.2 ⟨hcode, hblock, houtput⟩, leadsWith_singleton_iff.2 hend⟩
    · exact ⟨runsOnly_iff.2 ⟨hcode, hblock, houtput⟩, isOneOf_firstWord_iff.1 hword⟩
    · refine ⟨runsOnly_iff.2 ⟨hcode, hblock, houtput⟩, ?_⟩
      intro hleads
      rcases leadsWith_cons_iff.1 hleads with heq | hleads
      · exact hend heq
      · exact hword (isOneOf_firstWord_iff.2 hleads)

/-- No other kind fits. -/
theorem Fits.classify_eq (h : kind.Fits opening.text code) : classify opening code = kind := by
  cases kind with
  | comment =>
    obtain rfl : opening = .comment := Opening.text_injective h
    rfl
  | escaped =>
    obtain rfl : opening = .escape := Opening.text_injective h
    rfl
  | block =>
    obtain ⟨hopens, hblock⟩ := h
    rw [classify_of_isCode (Opening.opensCode_text_iff.1 hopens), if_pos (opensBlock_iff.2 hblock)]
  | output =>
    obtain ⟨hopens, hblock, houtput⟩ := h
    rw [classify_of_isCode (Opening.opensCode_text_iff.1 hopens),
      if_neg (mt opensBlock_iff.1 hblock), if_pos (Opening.prefix_text_iff.1 houtput)]
  | blockEnd =>
    obtain ⟨hruns, hend⟩ := h
    obtain ⟨hcode, hblock, houtput⟩ := runsOnly_iff.1 hruns
    rw [classify_of_isCode hcode, if_neg hblock, if_neg houtput,
      if_pos (leadsWith_singleton_iff.1 hend)]
  | control =>
    obtain ⟨hruns, hword⟩ := h
    obtain ⟨hcode, hblock, houtput⟩ := runsOnly_iff.1 hruns
    rw [← isOneOf_firstWord_iff] at hword
    -- `end` is in neither of the two lists
    have hend : firstWord code ≠ "end".toList := by
      intro heq
      rw [heq] at hword
      revert hword
      decide
    rw [classify_of_isCode hcode, if_neg hblock, if_neg houtput, if_neg hend, if_pos hword]
  | statement =>
    obtain ⟨hruns, hword⟩ := h
    obtain ⟨hcode, hblock, houtput⟩ := runsOnly_iff.1 hruns
    have hend : firstWord code ≠ "end".toList :=
      fun heq => hword (leadsWith_cons_iff.2 (Or.inl heq))
    have hothers : ¬ isOneOf (openerWords ++ branchWords) (firstWord code) = true :=
      fun hmem => hword (leadsWith_cons_iff.2 (Or.inr (isOneOf_firstWord_iff.1 hmem)))
    rw [classify_of_isCode hcode, if_neg hblock, if_neg houtput, if_neg hend, if_neg hothers]

theorem classify_eq_iff : classify opening code = kind ↔ kind.Fits opening.text code := by
  constructor
  · rintro rfl
    exact fits_classify opening code
  · exact Fits.classify_eq

end ErbKind

/-- A conditional or a loop waits for an `end`, unless its code ends with one. -/
theorem Bracket.of_control_eq_opens_iff {code : List Char} :
    Bracket.of .control code = opens ↔ LeadsWith openerWords code ∧ ¬ EndsItself code := by
  rw [← isOneOf_firstWord_iff, ← endsWithEnd_iff, Bracket.of]
  split
  next h => simpa using h
  next h => simpa using h

/-! ## 6. Tags of a document -/

theorem ErbTag.text_mark_of_plain {source : List Char} {options : ParserOptions} {tag base : ErbTag}
    (h : base ∈ (parsed source options).erbTags) (hplain : tag.plain = base.plain) :
    tag.mark.text source = tag.opening.text := by
  obtain ⟨made, hmade, hbase, -⟩ := exists_base_of_mem_erbTags h
  obtain ⟨opening, mark, ending, hpiece, rfl⟩ := Document.exists_piece_of_mem_erbTags hmade
  have hboth := hplain.trans hbase
  have hmark : tag.mark = mark.span := congrArg ErbTag.mark hboth
  have hopening : tag.opening = opening := congrArg ErbTag.opening hboth
  rw [hmark, hopening]
  exact Piece.text_mark hpiece

theorem analyze_of_analyzed {source : List Char} {options : ParserOptions}
    (h : (parsed source options).analyzed = true) : options.analyze = true := by
  unfold parsed at h
  simp only at h
  split at h
  next hanalyze => exact hanalyze
  next => cases h

/-- However often a parsed document is analysed, a tag has the kind that its opening and its code
    say. -/
theorem kind_of_analyzed {source : List Char} {options : ParserOptions} {passes place : Nat}
    {tag : ErbTag}
    (hanalyzed : ((Document.analyze source)^[passes] (parsed source options)).analyzed = true)
    (htag : ((Document.analyze source)^[passes] (parsed source options)).erbTags[place]?
      = some tag) : tag.kind = some (tag.classify source) := by
  cases passes with
  | zero => exact (filter_issues_of_getElem? (analyze_of_analyzed hanalyzed) htag).1
  | succ passes =>
    rw [Document.getElem?_erbTags_iterate] at htag
    obtain ⟨base, -, rfl⟩ := Option.map_eq_some_iff.1 htag
    rw [Document.kind_pass_iterate (Nat.succ_pos passes)]
    show _ = some (((Document.pass source (parsed source options) place)^[passes + 1]
      base).plain.classify source)
    rw [Document.plain_pass_iterate]
    rfl

/-! ## 7. The theorem -/

/-- **The kind of an ERB tag and whether it waits for an `end` are what the patterns say.** -/
theorem kinds_fit_patterns (source : List Char) (options : ParserOptions) (memory : Memory)
    (document : Document) (h : (parse source options).outcome memory = .ok document) (passes : Nat)
    (hanalyzed : ((Document.analyze source)^[passes] document).analyzed = true) (place : Nat)
    (tag : ErbTag)
    (htag : ((Document.analyze source)^[passes] document).erbTags[place]? = some tag) :
    tag.Understood source ((Document.analyze source)^[passes] document) place := by
  obtain rfl := eq_parsed_of_parse h
  have hkind := kind_of_analyzed hanalyzed htag
  have hopening : tag.mark.text source = tag.opening.text := by
    rw [Document.getElem?_erbTags_iterate] at htag
    obtain ⟨base, hbase, rfl⟩ := Option.map_eq_some_iff.1 htag
    exact ErbTag.text_mark_of_plain (List.mem_of_getElem? hbase)
      (Document.plain_pass_iterate _ _ place base passes)
  refine ⟨trimmed_trim _, ?_, ?_⟩
  · intro kind
    rw [hkind, hopening, Option.some_inj]
    exact ErbKind.classify_eq_iff
  · intro hcontrol
    have hclassify : tag.classify source = .control :=
      Option.some.inj (hkind.symm.trans hcontrol)
    rw [Document.brackets, List.getElem?_map, htag, Option.map_some, Option.some_inj, hclassify]
    exact Bracket.of_control_eq_opens_iff

/-- A word that only ends in `do`, a block with parameters, a conditional that ends itself and one
    that waits. -/
theorem kinds_fit_patterns_waiting :
    ∃ document tag,
      (parse "<%undo%><%=a do |b|%><%if c;end%><%if d%>".toList {}).outcome .standard = .ok document
      ∧ document.erbTags.map ErbTag.kind
        = [some .statement, some .block, some .control, some .control]
      ∧ document.brackets "<%undo%><%=a do |b|%><%if c;end%><%if d%>".toList
        = [.neutral, .opens, .neutral, .opens]
      ∧ document.erbTags[3]? = some tag
      ∧ ErbTag.Understood "<%undo%><%=a do |b|%><%if c;end%><%if d%>".toList document 3 tag := by
  obtain ⟨list, hlist⟩ :
      ∃ list, (lex "<%undo%><%=a do |b|%><%if c;end%><%if d%>".toList).outcome .standard
        = .ok list :=
    exists_lex (by decide) (Memory.grantsUpTo_standard (by decide))
  have hparse := outcome_parse {} hlist
  have hlength :
      3 < (parsed "<%undo%><%=a do |b|%><%if c;end%><%if d%>".toList {}).erbTags.length := by
    decide +kernel
  have hlast := List.getElem?_eq_getElem hlength
  exact ⟨_, _, hparse, by decide +kernel, by decide +kernel, hlast,
    kinds_fit_patterns _ _ _ _ hparse 0 rfl 3 _ hlast⟩

end ErbTemplate
