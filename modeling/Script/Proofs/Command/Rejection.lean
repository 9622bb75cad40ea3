/-
# Data that are no program

A document may hold any data, and most data are no program.  Loading such data comes to an error,
and running the document then says what is wrong with it, unless the error is one of two that are
not reported: the data are no object at all, or loading comes to an integer beyond every double.
Those are exactly the data on which a command breaks off without a word
(`Command.loading_reported_iff`).

Which data have such an integer takes a look at the order in which loading goes through them
(`Document.Overflows`): a list from the front, a node field by field as its type names them
(`Document.nodeFields`), a token not at all.  The integer counts only if nothing before it is wrong.
Lists and nodes alike are gone through by `List.mapM`, so that one lemma says what the first error
is (`Document.mapM_eq_error_iff`).
-/
import Script.Proofs.Command.Files
import Script.Proofs.Decimal.Nearest
import Script.Proofs.Document.Settling

namespace Script

open Command (isReported)

namespace Document

variable {e : DocumentError}

/-! ## 1. The first error -/

theorem bind_eq_error {α β : Type} {x : Except DocumentError α}
    {f : α → Except DocumentError β} (h : (x >>= f) = .error e) :
    x = .error e ∨ ∃ a, x = .ok a ∧ f a = .error e := by
  cases x with
  | error e' =>
    cases h
    exact .inl rfl
  | ok a => exact .inr ⟨a, rfl, h⟩

/-- What is gone through fails at the first thing that fails. -/
theorem mapM_eq_error_iff {α β : Type} {f : α → Except DocumentError β} {xs : List α} :
    xs.mapM f = .error e ↔ ∃ before x after, xs = before ++ x :: after ∧
      (∀ b ∈ before, ∃ t, f b = .ok t) ∧ f x = .error e := by
  constructor
  · intro h
    induction xs with
    | nil => cases h
    | cons x rest ih =>
      rw [List.mapM_cons] at h
      rcases bind_eq_error h with hx | ⟨t, ht, h⟩
      · exact ⟨[], x, rest, rfl, List.forall_mem_nil _, hx⟩
      rcases bind_eq_error h with hrest | ⟨_, _, h⟩
      · obtain ⟨before, y, after, rfl, hbefore, hy⟩ := ih hrest
        exact ⟨x :: before, y, after, rfl, List.forall_mem_cons.mpr ⟨⟨t, ht⟩, hbefore⟩, hy⟩
      · cases h
  · rintro ⟨before, x, after, rfl, hbefore, hx⟩
    induction before with
    | nil =>
      rw [List.nil_append, List.mapM_cons, hx]
      rfl
    | cons b before ih =>
      obtain ⟨⟨t, ht⟩, hbefore⟩ := List.forall_mem_cons.mp hbefore
      rw [List.cons_append, List.mapM_cons, ht, ok_bind, ih hbefore]
      rfl

theorem toTrees_eq_mapM : ∀ ds : List Datum, toTrees ds = ds.mapM toTree
  | [] => rfl
  | d :: rest => by rw [toTrees, List.mapM_cons, toTrees_eq_mapM rest]

/-! ## 2. Nodes -/

/-- The fields of each type of node, in the order in which they are loaded. -/
def nodeFields : List (String × List String) :=
  [("Literal", ["value"]),
   ("Grouping", ["expression"]),
   ("Unary", ["operator", "right"]),
   ("Binary", ["left", "operator", "right"]),
   ("Logical", ["left", "operator", "right"]),
   ("Ternary", ["condition", "then_branch", "else_branch"]),
   ("Assign", ["name", "value"]),
   ("Variable", ["name"]),
   ("Call", ["callee", "paren", "arguments"]),
   ("Expression", ["expression"]),
   ("Print", ["expression"]),
   ("Let", ["name", "initializer"]),
   ("Block", ["statements"]),
   ("If", ["condition", "then_branch", "else_branch"]),
   ("While", ["condition", "body"]),
   ("Function", ["name", "params", "body"])]

section Nodes

variable {field : String → Except DocumentError Tree}

/-- A node whose fields are all loaded is no error. -/
theorem pure_eq_error_iff (t : Tree) : (pure t : Except DocumentError Tree) = .error e ↔
    [].mapM field = .error e := by
  constructor <;> intro h <;> cases h

/-- The first field fails, or the rest do. -/
theorem loads_first {name : String} {names : List String} {more : Tree → Except DocumentError Tree}
    (h : ∀ t, more t = .error e ↔ names.mapM field = .error e) :
    (field name >>= more) = .error e ↔ (name :: names).mapM field = .error e := by
  rw [List.mapM_cons]
  cases field name with
  | error => constructor <;> intro h <;> cases h <;> rfl
  | ok t =>
    rw [ok_bind, ok_bind, h t]
    cases names.mapM field with
    | error => exact Iff.rfl
    | ok => constructor <;> intro h <;> cases h

theorem loads_one {make : Tree → Tree} {first : String} :
    (do return make (← field first)) = .error e ↔ [first].mapM field = .error e :=
  loads_first fun _ => pure_eq_error_iff _

theorem loads_two {make : Tree → Tree → Tree} {first second : String} :
    (do return make (← field first) (← field second)) = .error e ↔
      [first, second].mapM field = .error e :=
  loads_first fun _ => loads_one

theorem loads_three {make : Tree → Tree → Tree → Tree} {first second third : String} :
    (do return make (← field first) (← field second) (← field third)) = .error e ↔
      [first, second, third].mapM field = .error e :=
  loads_first fun _ => loads_two

/-- A node fails as its fields do. -/
theorem toNode_eq_error_iff {kind : String} {names : List String}
    (h : (kind, names) ∈ nodeFields) :
    toNode (.str kind) field = .error e ↔ names.mapM field = .error e := by
  simp only [nodeFields, List.mem_cons, Prod.mk.injEq, List.not_mem_nil, or_false] at h
  casesm* _ ∨ _
  all_goals
    obtain ⟨rfl, rfl⟩ := ‹_ ∧ _›
    rw [toNode]
    first
    | exact loads_one
    | exact loads_two
    | exact loads_three

/-- A type that no node has is reported. -/
theorem toNode_eq_error {type : Datum} (h : toNode type field = .error e) :
    isReported e = true ∨ ∃ kind names, type = .str kind ∧ (kind, names) ∈ nodeFields ∧
      names.mapM field = .error e := by
  unfold toNode at h
  split at h
  all_goals first
    | exact .inr ⟨_, _, rfl, by decide, loads_one.mp h⟩
    | exact .inr ⟨_, _, rfl, by decide, loads_two.mp h⟩
    | exact .inr ⟨_, _, rfl, by decide, loads_three.mp h⟩
    | cases h
      exact .inl rfl

end Nodes

/-- A field is loaded as what it holds, or as null. -/
theorem loaded_toFields (name : String) (fields : List (String × Datum)) :
    loaded name (toFields fields) = ((Datum.field? name fields).map toTree).getD (.ok .null) := by
  induction fields with
  | nil => rfl
  | cons f rest ih =>
    rw [toFields, loaded, Datum.field?]
    split
    · rfl
    · exact ih

/-! ## 3. Integers beyond every double -/

/-- A tree can be made of a datum. -/
def Loads (d : Datum) : Prop := ∃ t, toTree d = .ok t

/-- Loading a datum comes to an integer that is rounded to infinity, and nothing that is loaded
before is wrong. -/
inductive Overflows : Datum → Prop where
  | int {i : ℤ} : Double.overflow ≤ |(i : ℚ)| → Overflows (.int i)
  | item {before : List Datum} {d : Datum} (after : List Datum) : (∀ b ∈ before, Loads b) →
    Overflows d → Overflows (.list (before ++ d :: after))
  | field {fields : List (String × Datum)} {kind name : String} {before after : List String}
      {d : Datum} :
    isToken fields = false → Datum.field? "type" fields = some (.str kind) →
    (kind, before ++ name :: after) ∈ nodeFields →
    (∀ n ∈ before, ∀ b, Datum.field? n fields = some b → Loads b) →
    Datum.field? name fields = some d → Overflows d → Overflows (.obj fields)

/-- **An integer beyond every double is an error wherever loading comes to it.** -/
theorem Overflows.toTree_eq {d : Datum} (h : Overflows d) : toTree d = .error .tooLarge := by
  induction h with
  | int hi => rw [toTree, Decimal.ofInt?_eq_none_iff.mpr hi]
  | item after hbefore _ ih =>
    rw [toTree, toTrees_eq_mapM, mapM_eq_error_iff.mpr ⟨_, _, after, rfl, hbefore, ih⟩]
    rfl
  | @field fields _ _ before _ _ htoken htype hnode hbefore hfield _ ih =>
    rw [toTree, htoken, if_neg Bool.false_ne_true, htype]
    refine (toNode_eq_error_iff hnode).mpr (mapM_eq_error_iff.mpr ⟨_, _, _, rfl, ?_, ?_⟩)
    · intro n hn
      rw [loaded_toFields]
      cases hb : Datum.field? n fields with
      | none => exact ⟨.null, rfl⟩
      | some b => exact hbefore n hn b hb
    · rw [loaded_toFields, hfield]
      exact ih

/-- An error is reported, or it is an integer beyond every double. -/
def Accounted (d : Datum) (e : DocumentError) : Prop :=
  isReported e = true ∨ e = .tooLarge ∧ Overflows d

theorem isReported_required {name : String} {fields : List (String × Datum)}
    (h : required name fields = .error e) : isReported e = true := by
  unfold required at h
  split at h <;> cases h
  rfl

theorem isReported_toKind {d : Datum} (h : toKind d = .error e) : isReported e = true := by
  unfold toKind at h
  split at h
  · split at h <;> cases h
    rfl
  all_goals
    cases h
    rfl

theorem isReported_toToken {fields : List (String × Datum)} (h : toToken fields = .error e) :
    isReported e = true := by
  rcases bind_eq_error h with hkind | ⟨named, -, h⟩
  · exact isReported_required hkind
  rcases bind_eq_error h with hkind | ⟨kind, -, h⟩
  · exact isReported_toKind hkind
  rcases bind_eq_error h with hline | ⟨line, -, h⟩
  · exact isReported_required hline
  rcases bind_eq_error h with hcolumn | ⟨column, -, h⟩
  · exact isReported_required hcolumn
  · cases h

theorem accounted_list {items : List Datum}
    (hitems : ∀ d ∈ items, ∀ e, toTree d = .error e → Accounted d e)
    (h : toTrees items = .error e) : Accounted (.list items) e := by
  rw [toTrees_eq_mapM] at h
  obtain ⟨before, d, after, rfl, hbefore, hd⟩ := mapM_eq_error_iff.mp h
  rcases hitems d (by simp) e hd with hreported | ⟨rfl, hover⟩
  · exact .inl hreported
  · exact .inr ⟨rfl, .item after hbefore hover⟩

theorem accounted_node {fields : List (String × Datum)}
    (hfields : ∀ name d, Datum.field? name fields = some d → ∀ e, toTree d = .error e →
      Accounted d e)
    (htoken : isToken fields = false)
    (h : toNode ((Datum.field? "type" fields).getD .null) (loaded · (toFields fields)) =
      .error e) : Accounted (.obj fields) e := by
  rcases toNode_eq_error h with hreported | ⟨kind, names, hkind, hnode, h⟩
  · exact .inl hreported
  have htype : Datum.field? "type" fields = some (.str kind) := by
    cases htype : Datum.field? "type" fields with
    | none =>
      rw [htype] at hkind
      cases hkind
    | some type =>
      rw [htype] at hkind
      exact congrArg some hkind
  obtain ⟨before, name, after, rfl, hbefore, hname⟩ := mapM_eq_error_iff.mp h
  rw [loaded_toFields] at hname
  cases hfield : Datum.field? name fields with
  | none =>
    rw [hfield] at hname
    cases hname
  | some d =>
    rw [hfield] at hname
    rcases hfields name d hfield e hname with hreported | ⟨rfl, hover⟩
    · exact .inl hreported
    · refine .inr ⟨rfl, .field htoken htype hnode ?_ hfield hover⟩
      intro n hn b hb
      obtain ⟨t, ht⟩ := hbefore n hn
      rw [loaded_toFields, hb] at ht
      exact ⟨t, ht⟩

mutual

/-- **All other errors of loading are reported.** -/
theorem accounted_toTree : ∀ (d : Datum) (e : DocumentError), toTree d = .error e → Accounted d e
  | .null, e, h | .bool _, e, h | .num _, e, h | .str _, e, h => by cases h
  | .int i, e, h => by
    rw [toTree] at h
    split at h
    · cases h
    · rename_i hnone
      cases h
      exact .inr ⟨rfl, .int (Decimal.ofInt?_eq_none_iff.mp hnone)⟩
  | .list items, e, h => by
    rcases bind_eq_error h with h | ⟨_, _, h⟩
    · exact accounted_list (accounted_items items) h
    · cases h
  | .obj fields, e, h => by
    rw [toTree] at h
    split at h
    · rcases bind_eq_error h with h | ⟨_, _, h⟩
      · exact .inl (isReported_toToken h)
      · cases h
    · rename_i htoken
      exact accounted_node (accounted_fields fields) (Bool.eq_false_of_not_eq_true htoken) h

theorem accounted_items : ∀ items : List Datum, ∀ d ∈ items, ∀ e, toTree d = .error e →
    Accounted d e
  | [] => List.forall_mem_nil _
  | d :: rest => List.forall_mem_cons.mpr ⟨accounted_toTree d, accounted_items rest⟩

theorem accounted_fields : ∀ (fields : List (String × Datum)) (name : String) (d : Datum),
    Datum.field? name fields = some d → ∀ e, toTree d = .error e → Accounted d e
  | [], _, _, hd => by cases hd
  | (n, first) :: rest, name, d, hd => by
    rw [Datum.field?] at hd
    split at hd
    · cases hd
      exact accounted_toTree first
    · exact accounted_fields rest name d hd

end

/-! ## 4. Programs -/

/-- A program whose body holds an integer beyond every double where loading comes to it. -/
def BodyOverflows (fields : List (String × Datum)) : Prop :=
  Datum.field? "type" fields = some (.str "Program") ∧
    ∃ items, Datum.field? "body" fields = some (.list items) ∧ Overflows (.list items)

theorem BodyOverflows.toProgram_eq {fields : List (String × Datum)} (h : BodyOverflows fields) :
    toProgram (.obj fields) = .error .tooLarge := by
  obtain ⟨htype, items, hbody, hover⟩ := h
  have hitems : toTrees items = .error .tooLarge := by
    rcases bind_eq_error hover.toTree_eq with h | ⟨_, _, h⟩
    · exact h
    · cases h
  simp only [toProgram, htype, hbody, Option.getD_some, bodyItems, ok_bind]
  exact hitems

theorem isReported_bodyItems {d : Datum} (h : bodyItems d = .error e) : isReported e = true := by
  unfold bodyItems at h
  split at h <;> cases h
  rfl

theorem Overflows.exists_item {items : List Datum} (h : Overflows (.list items)) :
    ∃ d ∈ items, ∀ s, d ≠ .str s := by
  cases h with
  | @item before d after _ hd =>
    refine ⟨d, by simp, ?_⟩
    rintro s rfl
    cases hd

/-- What is gone through in texts and in objects are texts. -/
theorem eq_list_of_overflows {body : Datum} {items : List Datum} (h : bodyItems body = .ok items)
    (hover : Overflows (.list items)) : body = .list items := by
  obtain ⟨d, hd, hstr⟩ := hover.exists_item
  unfold bodyItems at h
  split at h <;> cases h
  · rfl
  · obtain ⟨c, -, rfl⟩ := List.mem_map.mp hd
    exact absurd rfl (hstr _)
  · obtain ⟨entry, -, rfl⟩ := List.mem_map.mp hd
    exact absurd rfl (hstr _)

/-- The same of a program: all errors but that of an integer are reported. -/
theorem accounted_toProgram {fields : List (String × Datum)}
    (h : toProgram (.obj fields) = .error e) :
    isReported e = true ∨ e = .tooLarge ∧ BodyOverflows fields := by
  rw [toProgram] at h
  split at h
  · rename_i htype
    rcases bind_eq_error h with hbody | ⟨items, hbody, h⟩
    · exact .inl (isReported_bodyItems hbody)
    rcases accounted_list (accounted_items items) h with hreported | ⟨rfl, hover⟩
    · exact .inl hreported
    have hlist := eq_list_of_overflows hbody hover
    cases hfield : Datum.field? "body" fields with
    | none =>
      -- a program without a body is empty
      rw [hfield] at hlist
      cases hlist
      obtain ⟨d, hd, -⟩ := hover.exists_item
      cases hd
    | some body =>
      rw [hfield] at hlist
      exact .inr ⟨rfl, htype, items, by rw [hfield]; exact congrArg some hlist, hover⟩
  · cases h
    exact .inl rfl

theorem toProgram_of_not_object {d : Datum} (h : ∀ fields, d ≠ .obj fields) :
    toProgram d = .error (.notObject d.typeName) := by
  cases d with
  | obj fields => exact absurd rfl (h fields)
  | null | bool | int | num | str | list => rfl

end Document

namespace Command

open Document (toProgram BodyOverflows)

/-! ## 5. Running a document -/

theorem readText_of_file {look : Path → Entry} {p : Path} {text : String}
    (h : look p = .file text.toUTF8) (hreturn : '\r' ∉ text.toList) :
    readText look p = .ok text := by
  rw [readText, h]
  simp only [Text.ofBytes?_toUTF8 hreturn]

/-- A document that is no program is reported, or breaks the command off. -/
theorem perform_of_error {look : Path → Entry} {path text : String} {d : Datum} {e : DocumentError}
    (htext : readText look (.ofString path) = .ok text) (hdata : Datum.ofText text = .ok d)
    (h : toProgram d = .error e) (limits : Limits) (clock : Nat → Float) (input : String)
    (level : Nat) :
    perform limits clock look input (.document level path) =
      if isReported e then .rejected ("Error: invalid AST file: " ++ e.message ++ "\n")
      else .broken (.document e) := by
  have hread : readDocument look (.ofString path) = .error
      (if isReported e then .rejected ("Error: invalid AST file: " ++ e.message ++ "\n")
      else .broken (.document e)) := by
    simp only [readDocument, htext, bind, Except.bind, hdata, h]
    cases isReported e <;> rfl
  rw [perform, runDocument, hread]

/-- **What is wrong with a document is reported, but for two things.**  Data are loaded as a
program, or come to an error that is reported, exactly if they are an object and, in case they are a
program, loading its body does not come to an integer beyond every double while nothing before it is
wrong.  Data that are no object, and such an integer, come to errors of their own.  On a file that
holds the data, a command that runs it shows a reported error and ends with status 1, and on any
other error it breaks off. -/
theorem loading_reported_iff (d : Datum) :
    ((∃ statements, toProgram d = .ok statements) ∨
        (∃ e, toProgram d = .error e ∧ isReported e = true) ↔
      ∃ fields, d = .obj fields ∧ ¬ BodyOverflows fields) ∧
    ((∀ fields, d ≠ .obj fields) → toProgram d = .error (.notObject d.typeName)) ∧
    (∀ fields, d = .obj fields → BodyOverflows fields → toProgram d = .error .tooLarge) ∧
    ∀ (look : Path → Entry) (path text : String) (e : DocumentError),
      readText look (.ofString path) = .ok text → Datum.ofText text = .ok d →
      toProgram d = .error e → ∀ limits clock input level,
        perform limits clock look input (.document level path) =
          if isReported e then .rejected ("Error: invalid AST file: " ++ e.message ++ "\n")
          else .broken (.document e) := by
  refine ⟨⟨?_, ?_⟩, Document.toProgram_of_not_object, ?_, ?_⟩
  · intro h
    by_cases hobject : ∃ fields, d = .obj fields
    · obtain ⟨fields, rfl⟩ := hobject
      refine ⟨fields, rfl, fun hover => ?_⟩
      rcases h with ⟨statements, h⟩ | ⟨e, h, hreported⟩
      · rw [hover.toProgram_eq] at h
        cases h
      · rw [hover.toProgram_eq] at h
        cases h
        cases hreported
    · have hnot := Document.toProgram_of_not_object fun fields heq => hobject ⟨fields, heq⟩
      rcases h with ⟨statements, h⟩ | ⟨e, h, hreported⟩
      · rw [hnot] at h
        cases h
      · rw [hnot] at h
        cases h
        cases hreported
  · rintro ⟨fields, rfl, hover⟩
    cases h : toProgram (.obj fields) with
    | ok statements => exact .inl ⟨statements, rfl⟩
    | error e =>
      rcases Document.accounted_toProgram h with hreported | ⟨-, hbody⟩
      · exact .inr ⟨e, rfl, hreported⟩
      · exact absurd hbody hover
  · rintro fields rfl hover
    exact hover.toProgram_eq
  · intro look path text e htext hdata h limits clock input level
    exact perform_of_error htext hdata h limits clock input level

/-- A statement of a type that no node has comes before an integer beyond every double, and is what
is shown. -/
theorem loading_reported_iff_unknown_node :
    let program : Datum := .obj [("type", .str "Program"),
      ("body", .list [.null, .obj [("type", .str "Loop")], .int (2 ^ 1024)])]
    let look : Path → Entry := fun _ => .file program.toText.toUTF8
    (∃ fields, program = .obj fields ∧ ¬ BodyOverflows fields) ∧
    perform ⟨9, 9, 9⟩ (fun _ => 0) look "" (.document 3 "a.json") =
      .rejected "Error: invalid AST file: unknown AST node type 'Loop'\n" := by
  intro program look
  have h : toProgram program = .error (.unknownNode (.str "Loop")) := by rfl
  have htext : readText look (.ofString "a.json") = .ok program.toText :=
    readText_of_file rfl (Datum.cr_not_mem_write 0 program)
  have hlegible : program.Legible := by
    have hloop : (Datum.obj [("type", .str "Loop")]).Legible :=
      Document.legible_node (by decide) (List.forall_mem_nil _)
    have hlarge : (Datum.int (2 ^ 1024)).Legible := .int (Datum.kept_int (by decide +kernel))
    refine Document.legible_node (by decide) (List.forall_mem_singleton.mpr (.list ?_))
    simp only [List.forall_mem_cons]
    exact ⟨.null, hloop, hlarge, List.forall_mem_nil _⟩
  obtain ⟨hiff, -, -, hperform⟩ := loading_reported_iff program
  have hrun := hperform look "a.json" _ _ htext (Datum.ofText_toText hlegible) h ⟨9, 9, 9⟩
    (fun _ => 0) "" 3
  have hmessage : (DocumentError.unknownNode (.str "Loop")).message =
      "unknown AST node type 'Loop'" := rfl
  rw [hmessage] at hrun
  exact ⟨hiff.mp (.inr ⟨_, h, rfl⟩), hrun⟩

/-- A list is no program, and a program may hold an integer beyond every double: neither is
reported. -/
theorem loading_unreported :
    let look : Path → Entry := fun _ => .file "[]".toUTF8
    let large : Datum := .obj [("type", .str "Program"), ("body", .list [.int (2 ^ 1024)])]
    (toProgram (.list []) = .error (.notObject "list") ∧ isReported (.notObject "list") = false) ∧
    (toProgram large = .error .tooLarge ∧ isReported .tooLarge = false) ∧
    ∀ limits clock input level, perform limits clock look input (.document level "a.json") =
      .broken (.document (.notObject "list")) := by
  intro look large
  have hlarge : BodyOverflows [("type", .str "Program"), ("body", .list [.int (2 ^ 1024)])] := by
    refine ⟨rfl, _, rfl, @Document.Overflows.item [] _ [] (List.forall_mem_nil _) (.int ?_)⟩
    rw [Int.cast_pow, Int.cast_ofNat, abs_of_nonneg (by positivity), ← zpow_natCast]
    exact Decimal.overflow_le_two_zpow
  have htext : readText look (.ofString "a.json") = .ok "[]" := readText_of_file rfl (by decide)
  exact ⟨⟨rfl, rfl⟩, ⟨hlarge.toProgram_eq, rfl⟩, perform_of_error htext rfl rfl⟩

end Command

end Script
