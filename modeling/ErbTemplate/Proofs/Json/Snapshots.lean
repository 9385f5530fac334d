import ErbTemplate.Proofs.Json.RoundTrip
import ErbTemplate.Proofs.Token.Pieces
import ErbTemplate.Proofs.Tree.Coverage
import ErbTemplate.Snapshot

/-!
# Snapshots are plain

A snapshot leaves the library as JSON, and every number in it is an offset, a line or a column of
its source. Lines and columns are words of 32 bits by their type. A source that was lexed fits into
memory, so its offsets are words of 64 bits, and the JSON of its snapshots is plain: it survives
being written and read (`decode?_compact`).
-/

set_option autoImplicit false

namespace ErbTemplate

open Text Json

/-! ## 1. Places -/

theorem plain_location (location : Location) : Plain location.toJson := by
  have hword : ∀ word : UInt32, Plain (.nat word) := by
    intro word
    exact Plain.nat (Nat.lt_trans word.toNat_lt (by decide))
  simp [Location.toJson, Position.toJson, hword]

theorem plain_range {range : Range} (hstart : range.start < Nat.pow 2 64)
    (hstop : range.stop < Nat.pow 2 64) : Plain range.toJson := by
  simp [Range.toJson, Plain.nat hstart, Plain.nat hstop]

theorem Point.LiesIn.offset_le {point : Point} {source : List Char} (h : point.LiesIn source) :
    point.offset ≤ byteLength source := by
  obtain ⟨front, back, rfl, rfl⟩ := h
  rw [offset_advance_origin, byteLength_append]
  exact Nat.le_add_right _ _

/-! ## 2. Snapshots -/

theorem plain_token {token : Token} (hstart : token.range.start < Nat.pow 2 64)
    (hstop : token.range.stop < Nat.pow 2 64) : Plain (TokenSnapshot.capture token).toJson := by
  have hrange := plain_range hstart hstop
  simp [TokenSnapshot.toJson, TokenSnapshot.capture, hrange, plain_location]

theorem plain_lexSnapshot {tokens : List Token}
    (h : ∀ token ∈ tokens, Plain (TokenSnapshot.capture token).toJson) (source : List Char) :
    Plain (LexSnapshot.capture tokens source).toJson := by
  simpa [LexSnapshot.toJson, LexSnapshot.capture] using h

theorem plain_issues (issues : List Issue) :
    Plain (IssueSnapshot.listToJson (issues.map IssueSnapshot.capture)) := by
  simp [IssueSnapshot.listToJson, IssueSnapshot.toJson, plain_location]

theorem plain_orNull {α : Type} {encode : α → Json} {value : Option α}
    (h : ∀ value, Plain (encode value)) : Plain (.orNull encode value) := by
  cases value with
  | none => exact .null
  | some value => exact h value

theorem plain_ofErb (source : List Char) (tag : ErbTag) :
    Plain (NodeSnapshot.ofErb source tag).toJson := by
  simp [NodeSnapshot.ofErb, NodeSnapshot.toJson, plain_location, plain_issues, plain_orNull]

theorem plain_ofItem (source : List Char) (item : TagItem) :
    Plain (NodeSnapshot.ofItem source item).toJson := by
  cases item with
  | whitespace span => simp [NodeSnapshot.ofItem, NodeSnapshot.toJson, plain_location]
  | attr value => simp [NodeSnapshot.ofItem, NodeSnapshot.toJson, plain_location, plain_orNull]
  | erb tag => exact plain_ofErb source tag

theorem listToJson_eq_map (nodes : List NodeSnapshot) :
    NodeSnapshot.listToJson nodes = nodes.map NodeSnapshot.toJson := by
  induction nodes with
  | nil => rfl
  | cons node nodes ih => rw [NodeSnapshot.listToJson, ih, List.map_cons]

mutual

theorem plain_ofNode (source : List Char) (node : Node) :
    Plain (NodeSnapshot.ofNode source node).toJson := by
  match node with
  | .text span => simp [NodeSnapshot.ofNode, NodeSnapshot.toJson, plain_location]
  | .comment value =>
    simp [NodeSnapshot.ofNode, NodeSnapshot.toJson, plain_location, plain_issues]
  | .erb tag => exact plain_ofErb source tag
  | .element info children =>
    have hopen : ∀ item ∈ info.openTag.items, Plain (NodeSnapshot.ofItem source item).toJson :=
      fun item _ => plain_ofItem source item
    have hinside := plain_ofNodes source children
    simpa [NodeSnapshot.ofNode, NodeSnapshot.toJson, listToJson_eq_map, plain_location,
      plain_issues] using And.intro hopen hinside

theorem plain_ofNodes (source : List Char) (nodes : List Node) :
    ∀ snapshot ∈ NodeSnapshot.ofNodes source nodes, Plain snapshot.toJson := by
  match nodes with
  | [] => exact fun _ hmem => by cases hmem
  | node :: nodes =>
    rw [NodeSnapshot.ofNodes]
    exact List.forall_mem_cons.2 ⟨plain_ofNode source node, plain_ofNodes source nodes⟩

end

/-- **The JSON of a tree is plain.** -/
theorem plain_parseSnapshot (document : Document) (source : List Char) :
    Plain (ParseSnapshot.capture document source).toJson := by
  have hnodes := plain_ofNodes source document.children
  simpa [ParseSnapshot.toJson, ParseSnapshot.capture, NodeSnapshot.toJson, listToJson_eq_map,
    plain_location, plain_issues] using hnodes

/-! ## 3. Tokens of a source -/

/-- Lexing begins with a request for the room of one token to four bytes, so a source that is lexed
    has fewer bytes than a block. -/
theorem addressable_of_lex {source : List Char} {memory : Memory} {list : TokenList}
    (h : (lex source).outcome memory = .ok list) :
    byteLength source < Nat.pow 2 64 := by
  have hsize : 0 < TokenList.tokenSize := by decide
  have hcapacity : 0 < TokenList.firstCapacity source := Nat.succ_pos _
  rw [Alloc.outcome, lex, Alloc.run_bind, ItemArray.run_init hsize hcapacity] at h
  rcases ItemArray.requestRoom_cases TokenList.tokenSize (TokenList.firstCapacity source) memory
    with ⟨granted, -, hblock⟩ | ⟨bytes, left, hrun, -⟩
  · have hroom : 40 * (byteLength source / 4 + 1) ≤ 0x7FFF_FFFF_FFFF_FFF0 := hblock
    have hword : 0x7FFF_FFFF_FFFF_FFF0 < Nat.pow 2 64 := by decide
    omega
  · rw [hrun] at h
    cases h

/-- **The JSON of the tokens of a source is plain.** -/
theorem plain_of_lex {source : List Char} {memory : Memory} {list : TokenList}
    (h : (lex source).outcome memory = .ok list) :
    Plain (LexSnapshot.capture list.toList source).toJson := by
  have hlast := addressable_of_lex h
  rw [toList_of_lex h]
  refine plain_lexSnapshot (fun token hmem => ?_) source
  obtain ⟨hstart, hstop⟩ := liesIn_of_mem_tokens hmem
  exact plain_token (Nat.lt_of_le_of_lt hstart.offset_le hlast)
    (Nat.lt_of_le_of_lt hstop.offset_le hlast)

end ErbTemplate
