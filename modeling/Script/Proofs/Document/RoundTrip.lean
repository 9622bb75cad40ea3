/-
# Documents keep programs

Writing a program down and loading it again gives the same program, if nothing is lost on the way:
no callable stands in it, which could not be written at all, and no integer outside a token, which
would be loaded as a double (`Tree.Storable`).  What is read off source text is of that sort, since
every token of a text carries a datum (`ofSource_storable`).  So no two programs share a document
(`Document.programs_survive`).

The same holds by way of the text of the document (`Document.ofText_ofProgram`), as far as numbers
are read as they were written.  For the lines and columns of a source text that is so, unless the
text is longer than any integer that is read (`kept_of_length`).
-/
import Script.Document
import Script.Proofs.Datum.RoundTrip
import Script.Proofs.Parser.Families
import Script.Proofs.Run.WellFormed

namespace Script

variable {P : Datum → Prop}

/-! ## 1. Trees that survive being written down -/

/-- A tree of which nothing is lost when it is written down and loaded again.  Its numbers, and the
data that its tokens carry, are as `P` asks. -/
inductive Tree.Storable (P : Datum → Prop) : Tree → Prop where
  | null : Storable P .null
  | bool (b : Bool) : Storable P (.bool b)
  | num {x : Float} : P (.num x) → Storable P (.num x)
  | str (s : String) : Storable P (.str s)
  | seq {items : List Tree} : (∀ t ∈ items, Storable P t) → Storable P (.seq items)
  | token (kind : Kind) {literal line column : Datum} : P literal → P line → P column →
    Storable P (.token ⟨kind, .datum literal, line, column⟩)
  | literal {value : Tree} : Storable P value → Storable P (.literal value)
  | grouping {inner : Tree} : Storable P inner → Storable P (.grouping inner)
  | unary {operator right : Tree} : Storable P operator → Storable P right →
    Storable P (.unary operator right)
  | binary {left operator right : Tree} : Storable P left → Storable P operator →
    Storable P right → Storable P (.binary left operator right)
  | logical {left operator right : Tree} : Storable P left → Storable P operator →
    Storable P right → Storable P (.logical left operator right)
  | ternary {condition thenBranch elseBranch : Tree} : Storable P condition →
    Storable P thenBranch → Storable P elseBranch →
    Storable P (.ternary condition thenBranch elseBranch)
  | assign {name value : Tree} : Storable P name → Storable P value →
    Storable P (.assign name value)
  | variable {name : Tree} : Storable P name → Storable P (.variable name)
  | call {callee paren arguments : Tree} : Storable P callee → Storable P paren →
    Storable P arguments → Storable P (.call callee paren arguments)
  | expression {inner : Tree} : Storable P inner → Storable P (.expression inner)
  | print {inner : Tree} : Storable P inner → Storable P (.print inner)
  | letDecl {name initializer : Tree} : Storable P name → Storable P initializer →
    Storable P (.letDecl name initializer)
  | block {statements : Tree} : Storable P statements → Storable P (.block statements)
  | ifElse {condition thenBranch elseBranch : Tree} : Storable P condition →
    Storable P thenBranch → Storable P elseBranch →
    Storable P (.ifElse condition thenBranch elseBranch)
  | whileLoop {condition body : Tree} : Storable P condition → Storable P body →
    Storable P (.whileLoop condition body)
  | function {name params body : Tree} : Storable P name → Storable P params →
    Storable P body → Storable P (.function name params body)

theorem Kind.ofName?_name (k : Kind) : ofName? k.name = some k := by
  cases k <;> decide

theorem Tree.readAll_eq_map {α : Type} (r : Reading α) (trees : List Tree) :
    readAll r trees = trees.map (read r) := by
  induction trees with
  | nil => rfl
  | cons t rest ih => rw [readAll, ih, List.map_cons]

namespace Document

/-! ## 2. Loading what was written -/

theorem ok_bind {α β : Type} (a : α) (f : α → Except DocumentError β) :
    (Except.ok a >>= f) = f a := rfl

theorem toTree_ofToken (kind : Kind) (literal line column : Datum) :
    toTree (ofToken ⟨kind, .datum literal, line, column⟩) =
      .ok (.token ⟨kind, .datum literal, line, column⟩) := by
  simp only [ofToken, toTree, isToken, toToken, required, Datum.field?, String.reduceEq, if_true,
    if_false, beq_self_eq_true, ok_bind, toKind, Kind.ofName?_name]
  rfl

/-- Each of some trees is loaded as it was written. -/
theorem toTrees_ofTree : ∀ trees : List Tree, (∀ t ∈ trees, toTree (ofTree t) = .ok t) →
    toTrees (trees.map ofTree) = .ok trees
  | [], _ => rfl
  | t :: rest, h => by
    rw [List.map_cons, toTrees, h t List.mem_cons_self,
      toTrees_ofTree rest fun t ht => h t (List.mem_cons_of_mem _ ht)]
    rfl

theorem ofTree_seq (items : List Tree) : ofTree (.seq items) = .list (items.map ofTree) := by
  rw [ofTree, Tree.read, Tree.readAll_eq_map]
  rfl

theorem writing_node (name : String) (fields : List (String × Datum)) :
    writing.node name fields = .obj (("type", .str name) :: fields) := rfl

/-- What a token carries is written down the same in the token and in the tree that is read off
it. -/
theorem ofTree_ofLiteral (l : Literal) : ofTree (.ofLiteral l) = l.toDatum := by
  cases l with
  | datum d => cases d <;> rfl
  | callable c => rfl

/-- An object that names a type and is no token is loaded as a node of that type. -/
theorem toTree_node {name : String} {fields : List (String × Datum)}
    (h : isToken (("type", .str name) :: fields) = false) :
    toTree (.obj (("type", .str name) :: fields)) =
      toNode (.str name) (loaded · (toFields (("type", .str name) :: fields))) := by
  simp only [toTree, h, Bool.false_eq_true, if_false, Datum.field?, if_true, Option.getD_some]

/-- **A tree of which nothing can be lost is loaded as it was written.** -/
theorem toTree_ofTree {t : Tree} (h : t.Storable P) : toTree (ofTree t) = .ok t := by
  induction h with
  | null | bool | num | str => rfl
  | @seq items _ ih =>
    rw [ofTree_seq, toTree, toTrees_ofTree items ih]
    rfl
  | token kind _ _ _ => exact toTree_ofToken kind _ _ _
  | literal _ ih | grouping _ ih | «variable» _ ih | expression _ ih | print _ ih | block _ ih =>
    rw [ofTree] at ih
    rw [ofTree, Tree.read, writing_node, toTree_node rfl, toNode]
    simp only [toFields, loaded, String.reduceEq, ↓reduceIte, ih]
    rfl
  | unary _ _ ih ih' | assign _ _ ih ih' | letDecl _ _ ih ih' | whileLoop _ _ ih ih' =>
    rw [ofTree] at ih ih'
    rw [ofTree, Tree.read, writing_node, toTree_node rfl, toNode]
    simp only [toFields, loaded, String.reduceEq, ↓reduceIte, ih, ih']
    rfl
  | binary _ _ _ ih ih' ih'' | logical _ _ _ ih ih' ih'' | ternary _ _ _ ih ih' ih''
  | call _ _ _ ih ih' ih'' | ifElse _ _ _ ih ih' ih'' | function _ _ _ ih ih' ih'' =>
    rw [ofTree] at ih ih' ih''
    rw [ofTree, Tree.read, writing_node, toTree_node rfl, toNode]
    simp only [toFields, loaded, String.reduceEq, ↓reduceIte, ih, ih', ih'']
    rfl

/-- **A program of which nothing can be lost is loaded as it was written.** -/
theorem toProgram_ofProgram {trees : List Tree} (h : ∀ t ∈ trees, t.Storable P) :
    toProgram (ofProgram trees) = .ok trees := by
  have hall := toTrees_ofTree trees fun t ht => toTree_ofTree (h t ht)
  simp only [ofProgram, toProgram, Datum.field?, if_true, if_false, String.reduceEq, Option.getD_some,
    bodyItems, ok_bind]
  exact hall

theorem unwritable_seq (items : List Tree) :
    unwritable (.seq items) = (items.map unwritable).flatten := by
  rw [unwritable, Tree.read, Tree.readAll_eq_map]
  rfl

theorem refusing_node (name : String) (fields : List (String × List String)) :
    refusing.node name fields = (fields.map (·.2)).flatten := rfl

theorem unwritable_of_storable {t : Tree} (h : t.Storable P) : unwritable t = [] := by
  induction h with
  | null | bool | num | str | token => rfl
  | @seq items _ ih =>
    rw [unwritable_seq, List.flatten_eq_nil_iff]
    intro l hl
    obtain ⟨t, ht, rfl⟩ := List.mem_map.mp hl
    exact ih t ht
  | literal _ ih | grouping _ ih | «variable» _ ih | expression _ ih | print _ ih | block _ ih =>
    rw [unwritable] at ih
    rw [unwritable, Tree.read, refusing_node, List.map_cons, ih]
    rfl
  | unary _ _ ih ih' | assign _ _ ih ih' | letDecl _ _ ih ih' | whileLoop _ _ ih ih' =>
    rw [unwritable] at ih ih'
    rw [unwritable, Tree.read, refusing_node, List.map_cons, List.map_cons, ih, ih']
    rfl
  | binary _ _ _ ih ih' ih'' | logical _ _ _ ih ih' ih'' | ternary _ _ _ ih ih' ih''
  | call _ _ _ ih ih' ih'' | ifElse _ _ _ ih ih' ih'' | function _ _ _ ih ih' ih'' =>
    rw [unwritable] at ih ih' ih''
    rw [unwritable, Tree.read, refusing_node, List.map_cons, List.map_cons, List.map_cons, ih, ih',
      ih'']
    rfl

/-- Such a program can be written down in the first place. -/
theorem writeProgram_eq {trees : List Tree} (h : ∀ t ∈ trees, t.Storable P) :
    writeProgram trees = .ok (ofProgram trees) := by
  have hall : ∀ trees : List Tree, (∀ t ∈ trees, t.Storable P) →
      trees.mapM write = .ok (trees.map ofTree) := by
    intro trees h
    induction trees with
    | nil => rfl
    | cons t rest ih =>
      have ht : write t = .ok (ofTree t) := by
        rw [write, unwritable_of_storable (h t List.mem_cons_self)]
      rw [List.mapM_cons, ht, ih fun t ht => h t (List.mem_cons_of_mem _ ht)]
      rfl
  rw [writeProgram, hall trees h]
  rfl

end Document

/-! ## 3. Source text -/

/-- A token of a source text: it carries a datum, and the one that its kind says. -/
structure Token.Written (P : Datum → Prop) (t : Token) : Prop where
  datum : ∃ d, t.literal = .datum d ∧ P d
  line : P t.line
  column : P t.column
  carries : t.Carries

theorem Token.Written.storable {t : Token} (h : t.Written P) : (Tree.token t).Storable P := by
  obtain ⟨⟨d, hd, hP⟩, hline, hcolumn, -⟩ := h
  obtain ⟨kind, literal, line, column⟩ := t
  cases hd
  exact .token kind hP hline hcolumn

theorem Token.Written.literal {t : Token} (h : t.Written P) {d : Datum}
    (hd : t.literal = .datum d) : P d := by
  obtain ⟨d', hd', hP⟩ := h.datum
  rw [hd] at hd'
  cases hd'
  exact hP

theorem Token.Written.storable_atom {t : Token} (h : t.Written P) {tree : Tree}
    (htree : Parser.atom? t = some tree) : tree.Storable P := by
  unfold Parser.atom? at htree
  split at htree
  · cases htree
    exact .literal (.bool false)
  · cases htree
    exact .literal (.bool true)
  · cases htree
    exact .literal .null
  · rename_i hkind
    obtain ⟨x, hx⟩ := h.carries.1 hkind
    rw [hx] at htree
    cases htree
    exact .literal (.num (h.literal hx))
  · rename_i hkind
    obtain ⟨s, hs⟩ := h.carries.2 hkind
    rw [hs] at htree
    cases htree
    exact .literal (.str s)
  · cases htree
    exact .variable h.storable
  · cases htree

/-- Nothing can be lost of what parsers build out of such tokens. -/
def storing (P : Datum → Prop) : Building (.only (Token.Written P)) where
  Expression τ := (τ ()).Storable P
  Statement τ := (τ ()).Storable P
  Declaration τ := (τ ()).Storable P
  atom hφ := .only fun _ => Token.Written.storable_atom hφ
  always := .literal (.bool true)
  grouping := .grouping
  unary hoperator := .unary (Token.Written.storable hoperator)
  binary hleft hoperator := .binary hleft (Token.Written.storable hoperator)
  logical hleft hoperator := .logical hleft (Token.Written.storable hoperator)
  ternary := .ternary
  call hcallee hparen harguments :=
    .call hcallee (Token.Written.storable hparen) (.seq harguments.mem)
  target {τ} hτ := by
    cases htree : τ () with
    | «variable» name =>
      rw [htree] at hτ
      cases hτ with
      | «variable» hname => exact .inl ⟨fun _ => name, funext fun _ => htree, .assign hname⟩
    | _ => exact .inr fun _ name h => by cases htree.symm.trans h
  expression := .expression
  print := .print
  block hstatements := .block (.seq hstatements.mem)
  ifThen hcondition hthen := .ifElse hcondition hthen .null
  ifElse := .ifElse
  whileLoop := .whileLoop
  statement := id
  letBare hname := .letDecl (Token.Written.storable hname) .null
  letDecl hname := .letDecl (Token.Written.storable hname)
  function hname hparams hbody := by
    refine .function (Token.Written.storable hname) (.seq fun tree htree => ?_) (.seq hbody.mem)
    obtain ⟨t, ht, rfl⟩ := List.mem_map.mp htree
    exact Token.Written.storable (hparams.mem t ht)

theorem Segment.literal_token? {s : Segment} {kind : Kind} {literal : Datum}
    (h : s.token? = some (kind, literal)) :
    literal = .null ∨ (∃ text, literal = .str text) ∨ ∃ x, literal = .num x := by
  cases s with
  | text body =>
    cases h
    exact .inr (.inl ⟨_, rfl⟩)
  | number digits fraction =>
    cases h
    exact .inr (.inr ⟨_, rfl⟩)
  | word cs =>
    simp only [token?] at h
    split at h
    · cases h
      exact .inl rfl
    · cases h
      exact .inr (.inl ⟨_, rfl⟩)
  | mark k =>
    cases h
    exact .inl rfl
  | blank | lineComment | blockComment | openComment | openText | stray => cases h

/-- The larger one of the line and the column of a place. -/
def Position.reach (p : Position) : Nat := max p.line p.column

theorem Position.reach_afterAll (cs : List Char) (p : Position) :
    (p.afterAll cs).reach ≤ p.reach + cs.length := by
  induction cs generalizing p with
  | nil => exact Nat.le_refl _
  | cons c cs ih =>
    have hstep : (p.after c).reach ≤ p.reach + 1 := by
      unfold Position.after Position.reach
      split <;> simp only <;> omega
    have hrest := ih (p.after c)
    rw [List.length_cons]
    show ((p.after c).afterAll cs).reach ≤ _
    omega

theorem placed_scanFrom : ∀ (segments : List Segment) (p : Position),
    ∀ t ∈ (scanFrom p segments).tokens, ∃ kind d, ∃ place : Position,
      t = .placed kind d place.line place.column ∧
      place.reach ≤ p.reach + (segments.flatMap Segment.chars).length ∧
      (d = .null ∨ (∃ text, d = .str text) ∨ ∃ x, d = .num x)
  | [], p, t, ht => by
    obtain rfl := List.mem_singleton.mp ht
    exact ⟨_, _, p, rfl, Nat.le_refl _, .inl rfl⟩
  | s :: rest, p, t, ht => by
    rw [List.flatMap_cons, List.length_append]
    rcases List.mem_append.mp ht with ht | ht
    · obtain ⟨⟨kind, literal⟩, htoken, rfl⟩ := Option.map_eq_some_iff.mp (Option.mem_toList.mp ht)
      exact ⟨_, _, p, rfl, Nat.le_add_right _ _, s.literal_token? htoken⟩
    · obtain ⟨kind, d, place, rfl, hplace, hd⟩ := placed_scanFrom rest _ t ht
      have hafter := p.reach_afterAll s.chars
      exact ⟨kind, d, place, rfl, by omega, hd⟩

/-- The tokens of a source text stand within it, and carry nothing, a string or a number. -/
theorem placed_scan (source : String) : ∀ t ∈ (scan source).tokens, ∃ kind d,
    ∃ place : Position, t = .placed kind d place.line place.column ∧
      place.reach ≤ 1 + source.length ∧
      (d = .null ∨ (∃ text, d = .str text) ∨ ∃ x, d = .num x) := by
  rw [scan_eq]
  have hplaced := placed_scanFrom (segments source.toList) .start
  rwa [chars_segments, String.length_toList] at hplaced

theorem written_scan (source : String) :
    ∀ t ∈ (scan source).tokens, t.Written fun _ => True := by
  intro t ht
  obtain ⟨kind, d, place, rfl, -, -⟩ := placed_scan source t ht
  exact ⟨⟨d, rfl, trivial⟩, trivial, trivial, carries_scan source _ ht⟩

/-- Nothing can be lost of what is read off a source text, be there errors in it or not. -/
theorem ofSource_storable (depth : Nat) {source : String}
    (h : ∀ t ∈ (scan source).tokens, t.Written P) :
    ∀ t ∈ (Program.ofSource depth source).statements, t.Storable P :=
  (storing P).builds_ofSource h

namespace Document

/-- Writing a program down loses nothing: different programs are written differently. -/
theorem writeProgram_injective {trees others : List Tree} (h : ∀ t ∈ trees, t.Storable P)
    (hothers : ∀ t ∈ others, t.Storable P) (heq : writeProgram trees = writeProgram others) :
    trees = others := by
  rw [writeProgram_eq h, writeProgram_eq hothers] at heq
  have hloaded := congrArg toProgram (Except.ok.inj heq)
  rw [toProgram_ofProgram h, toProgram_ofProgram hothers] at hloaded
  exact Except.ok.inj hloaded

/-- **A document keeps its program.**  Every program of nodes, tokens and plain values can be
written down, is loaded again as it was, and shares its document with no other.  What is read off a
source text is such a program, be there errors in the text or not. -/
theorem programs_survive :
    (∀ trees : List Tree, (∀ t ∈ trees, t.Storable fun _ => True) →
      ∃ document, writeProgram trees = .ok document ∧ toProgram document = .ok trees) ∧
    (∀ trees others : List Tree, (∀ t ∈ trees, t.Storable fun _ => True) →
      (∀ t ∈ others, t.Storable fun _ => True) → writeProgram trees = writeProgram others →
      trees = others) ∧
    ∀ (depth : Nat) (source : String), ∃ document,
      writeProgram (Program.ofSource depth source).statements = .ok document ∧
      toProgram document = .ok (Program.ofSource depth source).statements := by
  have hkept : ∀ trees : List Tree, (∀ t ∈ trees, t.Storable fun _ => True) →
      ∃ document, writeProgram trees = .ok document ∧ toProgram document = .ok trees :=
    fun trees h => ⟨ofProgram trees, writeProgram_eq h, toProgram_ofProgram h⟩
  exact ⟨hkept, fun _ _ => writeProgram_injective,
    fun depth source => hkept _ (ofSource_storable depth (written_scan source))⟩

/-- A call whose tokens no source text has, and a text with two errors of which two statements are
left. -/
theorem programs_survive_broken :
    let paren : Tree := .token ⟨.number, .datum (.num 0.5), .int (-1), .int 0⟩
    let made : Tree := .call (.literal (.num 1)) paren (.seq [.literal .null, .literal (.str "a")])
    let broken := "fn f(a) \x7b let b; -a; \x7d let = 1; print(\"a\" ? 1.5 : null); f(;"
    (∃ document, writeProgram [.print made] = .ok document ∧
      toProgram document = .ok [.print made]) ∧
    (Program.ofSource 9 broken).errors.length = 2 ∧
    (Program.ofSource 9 broken).statements.length = 2 ∧
    ∃ document, writeProgram (Program.ofSource 9 broken).statements = .ok document ∧
      toProgram document = .ok (Program.ofSource 9 broken).statements := by
  intro paren made broken
  have hmade : ∀ t ∈ [Tree.print made], t.Storable fun _ => True := by
    rw [List.forall_mem_singleton]
    refine .print (.call (.literal (.num trivial)) (.token _ trivial trivial trivial) (.seq ?_))
    simp only [List.forall_mem_cons]
    exact ⟨.literal .null, .literal (.str "a"), by simp⟩
  exact ⟨programs_survive.1 _ hmade, by decide +kernel, by decide +kernel,
    programs_survive.2.2 9 broken⟩

end Document

/-! ## 4. The text of a document -/

/-- The number that a token carries, if it carries one. -/
def Token.number? (t : Token) : Option Float :=
  match t.literal with
  | .datum (.num x) => some x
  | _ => none

/-- A token whose numbers are read as they were written. -/
structure Token.Kept (t : Token) : Prop where
  line : Datum.Kept t.line
  column : Datum.Kept t.column
  number : ∀ x ∈ t.number?, Datum.Kept (.num x)

/-- Places are kept, unless a source text is longer than any integer that is read. -/
theorem kept_of_length {source : String}
    (hlength : (Nat.toDigits 10 (1 + source.length)).length ≤ Datum.mostDigits)
    (hnumbers : ∀ t ∈ (scan source).tokens, ∀ x ∈ t.number?, Datum.Kept (.num x)) :
    ∀ t ∈ (scan source).tokens, t.Kept := by
  intro t ht
  have hnumber := hnumbers t ht
  obtain ⟨kind, d, place, rfl, hplace, -⟩ := placed_scan source t ht
  have hkept : ∀ n : Nat, n ≤ place.reach → Datum.Kept (.int n) := fun n hn =>
    Datum.kept_int (Nat.le_trans (Datum.length_toDigits_mono (Nat.le_trans hn hplace)) hlength)
  exact ⟨hkept _ (Nat.le_max_left _ _), hkept _ (Nat.le_max_right _ _), hnumber⟩

theorem written_of_kept {source : String} (h : ∀ t ∈ (scan source).tokens, t.Kept) :
    ∀ t ∈ (scan source).tokens, t.Written Datum.Legible := by
  intro t ht
  have hcarries := carries_scan source t ht
  have hkept := h t ht
  obtain ⟨kind, d, place, rfl, -, hd⟩ := placed_scan source t ht
  refine ⟨⟨d, rfl, ?_⟩, .int hkept.line, .int hkept.column, hcarries⟩
  rcases hd with rfl | ⟨text, rfl⟩ | ⟨x, rfl⟩
  · exact .null
  · exact .str text
  · exact .num (hkept.number x rfl)

namespace Document

open Datum (Legible)

theorem legible_node {name : String} {fields : List (String × Datum)}
    (hnames : ("type" :: fields.map (·.1)).Nodup) (h : ∀ f ∈ fields, f.2.Legible) :
    Legible (.obj (("type", .str name) :: fields)) := by
  refine .obj hnames fun f hf => ?_
  rcases List.mem_cons.mp hf with rfl | hf
  · exact .str name
  · exact h f hf

theorem legible_ofTree {t : Tree} (h : t.Storable Legible) : (ofTree t).Legible := by
  induction h with
  | null => exact .null
  | bool b => exact .bool b
  | num hx => exact hx
  | str s => exact .str s
  | seq _ ih =>
    rw [ofTree_seq]
    refine .list fun d hd => ?_
    obtain ⟨t, ht, rfl⟩ := List.mem_map.mp hd
    exact ih t ht
  | token kind hliteral hline hcolumn =>
    refine .obj (by simp) ?_
    simp only [List.forall_mem_cons]
    exact ⟨.str _, .str _, hliteral, hline, hcolumn, by simp⟩
  | literal _ ih | grouping _ ih | «variable» _ ih | expression _ ih | print _ ih | block _ ih =>
    simp only [ofTree] at ih
    exact legible_node (by simp) (by simpa using ih)
  | unary _ _ ih ih' | assign _ _ ih ih' | letDecl _ _ ih ih' | whileLoop _ _ ih ih' =>
    simp only [ofTree] at ih ih'
    exact legible_node (by simp) (by simpa using ⟨ih, ih'⟩)
  | binary _ _ _ ih ih' ih'' | logical _ _ _ ih ih' ih'' | ternary _ _ _ ih ih' ih''
  | call _ _ _ ih ih' ih'' | ifElse _ _ _ ih ih' ih'' | function _ _ _ ih ih' ih'' =>
    simp only [ofTree] at ih ih' ih''
    exact legible_node (by simp) (by simpa using ⟨ih, ih', ih''⟩)

/-- The text of a program of which nothing can be lost is read as the document that was written. -/
theorem ofText_ofProgram {trees : List Tree} (h : ∀ t ∈ trees, t.Storable Legible) :
    Datum.ofText (ofProgram trees).toText = .ok (ofProgram trees) := by
  refine Datum.ofText_toText (legible_node (by simp) ?_)
  simp only [List.forall_mem_singleton]
  refine .list fun d hd => ?_
  obtain ⟨t, ht, rfl⟩ := List.mem_map.mp hd
  exact legible_ofTree (h t ht)

end Document

end Script
