/-
# Loading settles a document

A document need not come from a program.  Its objects may have fields that no node has and lack
those that a node needs, nodes may stand where tokens belong, and tokens and lists within literals.
Whatever data are loaded, though, the tree that comes out can be written down, and loading what was
written gives the same tree again (`Document.loading_settles`).  So all that loading changes it
changes the first time: unknown fields are gone, absent ones are null, and integers are doubles.

There is one reason for this: loading builds only trees of which nothing is lost when they are
written (`Document.settled_toTree`).  No callable comes out of data, and no integer but those that
a token carries, which stay as they are.
-/
import Script.Proofs.Document.RoundTrip

namespace Script.Document

/-! ## 1. What loading builds -/

/-- Nothing is lost of a tree when it is written, whatever its tokens carry. -/
abbrev Settled (t : Tree) : Prop := t.Storable fun _ => True

theorem bind_eq_ok {α β : Type} {x : Except DocumentError α} {f : α → Except DocumentError β}
    {b : β} (h : (x >>= f) = .ok b) : ∃ a, x = .ok a ∧ f a = .ok b := by
  cases x with
  | error e => cases h
  | ok a => exact ⟨a, rfl, h⟩

/-- A token takes its data as they are. -/
theorem settled_toToken {fields : List (String × Datum)} {t : Token}
    (h : toToken fields = .ok t) : Settled (.token t) := by
  obtain ⟨named, -, h⟩ := bind_eq_ok h
  obtain ⟨kind, -, h⟩ := bind_eq_ok h
  obtain ⟨line, -, h⟩ := bind_eq_ok h
  obtain ⟨column, -, h⟩ := bind_eq_ok h
  cases h
  exact .token kind trivial trivial trivial

section Nodes

variable {field : String → Except DocumentError Tree}
  (hfield : ∀ name t, field name = .ok t → Settled t) {t : Tree}

include hfield

/-- A node of one field is settled if that is. -/
theorem settled_one {make : Tree → Tree} (hmake : ∀ {a}, Settled a → Settled (make a))
    {first : String} (h : (do return make (← field first)) = .ok t) : Settled t := by
  obtain ⟨a, ha, h⟩ := bind_eq_ok h
  cases h
  exact hmake (hfield first a ha)

theorem settled_two {make : Tree → Tree → Tree}
    (hmake : ∀ {a b}, Settled a → Settled b → Settled (make a b)) {first second : String}
    (h : (do return make (← field first) (← field second)) = .ok t) : Settled t := by
  obtain ⟨a, ha, h⟩ := bind_eq_ok h
  exact settled_one hfield (hmake (hfield first a ha)) h

theorem settled_three {make : Tree → Tree → Tree → Tree}
    (hmake : ∀ {a b c}, Settled a → Settled b → Settled c → Settled (make a b c))
    {first second third : String}
    (h : (do return make (← field first) (← field second) (← field third)) = .ok t) :
    Settled t := by
  obtain ⟨a, ha, h⟩ := bind_eq_ok h
  exact settled_two hfield (hmake (hfield first a ha)) h

theorem settled_toNode {type : Datum} (h : toNode type field = .ok t) : Settled t := by
  unfold toNode at h
  split at h
  · exact settled_one hfield .literal h
  · exact settled_one hfield .grouping h
  · exact settled_two hfield .unary h
  · exact settled_three hfield .binary h
  · exact settled_three hfield .logical h
  · exact settled_three hfield .ternary h
  · exact settled_two hfield .assign h
  · exact settled_one hfield .variable h
  · exact settled_three hfield .call h
  · exact settled_one hfield .expression h
  · exact settled_one hfield .print h
  · exact settled_two hfield .letDecl h
  · exact settled_one hfield .block h
  · exact settled_three hfield .ifElse h
  · exact settled_two hfield .whileLoop h
  · exact settled_three hfield .function h
  · cases h
  · cases h
  · cases h

end Nodes

/-- What a field loads as was loaded from a field, or is null. -/
theorem settled_loaded {trees : List (String × Except DocumentError Tree)}
    (h : ∀ found ∈ trees, ∀ t, found.2 = .ok t → Settled t) (name : String) (t : Tree)
    (ht : loaded name trees = .ok t) : Settled t := by
  induction trees with
  | nil =>
    cases ht
    exact .null
  | cons found trees ih =>
    obtain ⟨hfound, htrees⟩ := List.forall_mem_cons.mp h
    rw [loaded] at ht
    split at ht
    · exact hfound t ht
    · exact ih htrees ht

mutual

/-- **Loading builds only trees of which nothing is lost when they are written.** -/
theorem settled_toTree : ∀ (d : Datum) {t : Tree}, toTree d = .ok t → Settled t
  | .null, t, h => by
    cases h
    exact .null
  | .bool b, t, h => by
    cases h
    exact .bool b
  | .int i, t, h => by
    rw [toTree] at h
    split at h
    · cases h
      exact .num trivial
    · cases h
  | .num x, t, h => by
    cases h
    exact .num trivial
  | .str s, t, h => by
    cases h
    exact .str s
  | .list items, t, h => by
    obtain ⟨trees, htrees, h⟩ := bind_eq_ok h
    cases h
    exact .seq (settled_toTrees items htrees)
  | .obj fields, t, h => by
    rw [toTree] at h
    split at h
    · obtain ⟨token, htoken, h⟩ := bind_eq_ok h
      cases h
      exact settled_toToken htoken
    · exact settled_toNode (settled_loaded (settled_toFields fields)) h

theorem settled_toTrees : ∀ (ds : List Datum) {trees : List Tree}, toTrees ds = .ok trees →
    ∀ t ∈ trees, Settled t
  | [], trees, h => by
    cases h
    intro t ht
    cases ht
  | d :: rest, trees, h => by
    obtain ⟨first, hfirst, h⟩ := bind_eq_ok h
    obtain ⟨more, hmore, h⟩ := bind_eq_ok h
    cases h
    exact List.forall_mem_cons.mpr ⟨settled_toTree d hfirst, settled_toTrees rest hmore⟩

theorem settled_toFields : ∀ fields : List (String × Datum),
    ∀ found ∈ toFields fields, ∀ t, found.2 = .ok t → Settled t
  | [] => by
    rw [toFields]
    intro found hfound
    cases hfound
  | (name, d) :: rest => by
    rw [toFields]
    exact List.forall_mem_cons.mpr ⟨fun _ => settled_toTree d, settled_toFields rest⟩

end

theorem settled_toProgram {d : Datum} {trees : List Tree} (h : toProgram d = .ok trees) :
    ∀ t ∈ trees, Settled t := by
  unfold toProgram at h
  split at h
  · split at h
    · obtain ⟨items, -, h⟩ := bind_eq_ok h
      exact settled_toTrees items h
    · cases h
  · cases h

/-! ## 2. Writing and loading again -/

/-- **Loading settles a document.**  Whatever data a tree is loaded from, it can be written down,
and what was written is loaded as the same tree.  The same holds of a whole program, be its body a
list or anything else that can be gone through. -/
theorem loading_settles :
    (∀ (d : Datum) (t : Tree), toTree d = .ok t →
      ∃ written, write t = .ok written ∧ toTree written = .ok t) ∧
    ∀ (d : Datum) (trees : List Tree), toProgram d = .ok trees →
      ∃ written, writeProgram trees = .ok written ∧ toProgram written = .ok trees := by
  constructor
  · intro d t h
    have hsettled := settled_toTree d h
    refine ⟨ofTree t, ?_, toTree_ofTree hsettled⟩
    rw [write, unwritable_of_storable hsettled]
  · intro d trees h
    have hsettled := settled_toProgram h
    exact ⟨ofProgram trees, writeProgram_eq hsettled, toProgram_ofProgram hsettled⟩

/-- A call without arguments, with a field that no call has, a node for its parenthesis and for its
callee a list of an integer and of a token, which carries a list with an integer in it; and a
program whose body is an object. -/
theorem loading_settles_irregular :
    let token : Datum := .obj [("__type__", .str "Token"), ("kind", .str "PLUS"),
      ("literal", .list [.int 1, .obj []]), ("line", .null), ("column", .num 0.5)]
    let call : Datum := .obj [("type", .str "Call"), ("extra", .int 7),
      ("callee", .list [.int 3, token]), ("paren", .obj [("type", .str "Block")])]
    let program : Datum := .obj [("body", .obj [("a", .null), ("b", .int 2)]),
      ("type", .str "Program")]
    (∃ t, toTree call = .ok t ∧ ∃ written, write t = .ok written ∧ toTree written = .ok t) ∧
    toProgram program = .ok [.str "a", .str "b"] ∧
    ∃ written, writeProgram [.str "a", .str "b"] = .ok written ∧
      toProgram written = .ok [.str "a", .str "b"] := by
  intro token call program
  obtain ⟨t, ht⟩ : ∃ t, toTree call = .ok t := ⟨_, rfl⟩
  have hprogram : toProgram program = .ok [.str "a", .str "b"] := rfl
  exact ⟨⟨t, ht, loading_settles.1 call t ht⟩, hprogram, loading_settles.2 program _ hprogram⟩

end Script.Document
