/-
# Trees that make sense

A tree may hold anything anywhere.  `IsExpression` and `IsStatement` pick out those trees in which
tokens stand where tokens belong, expressions where expressions belong, and operators are
operators.  Reading source text without an error gives only such trees
(`ofSource_isStatement`): every rule of the grammar builds one out of such parts, and a number or
string that a text holds carries a number or a string.
-/
import Script.Proofs.Parser.Soundness
import Script.Proofs.Token.Lexing

namespace Script

/-! ## 1. Trees -/

namespace Tree

/-- What a literal of the language holds. -/
inductive IsConstant : Tree → Prop where
  | null : IsConstant .null
  | bool (b : Bool) : IsConstant (.bool b)
  | num (x : Float) : IsConstant (.num x)
  | str (s : String) : IsConstant (.str s)

/-- The operators that a binary node may have. -/
def binaryKinds : List Kind :=
  [.plus, .minus, .star, .slash, .elvis, .equalEqual, .bangEqual, .greater, .greaterEqual, .less,
    .lessEqual]

/-- An expression that makes sense. -/
inductive IsExpression : Tree → Prop where
  | literal {value : Tree} : IsConstant value → IsExpression (.literal value)
  | grouping {inner : Tree} : IsExpression inner → IsExpression (.grouping inner)
  | unary {operator : Token} {right : Tree} : operator.kind ∈ [Kind.bang, .minus] →
    IsExpression right → IsExpression (.unary (.token operator) right)
  | binary {left right : Tree} {operator : Token} : IsExpression left →
    operator.kind ∈ binaryKinds → IsExpression right →
    IsExpression (.binary left (.token operator) right)
  | logical {left right : Tree} {operator : Token} : IsExpression left →
    operator.kind ∈ [Kind.orWord, .andWord] → IsExpression right →
    IsExpression (.logical left (.token operator) right)
  | ternary {condition thenBranch elseBranch : Tree} : IsExpression condition →
    IsExpression thenBranch → IsExpression elseBranch →
    IsExpression (.ternary condition thenBranch elseBranch)
  | assign {name : Token} {value : Tree} : IsExpression value →
    IsExpression (.assign (.token name) value)
  | variable {name : Token} : IsExpression (.variable (.token name))
  | call {callee : Tree} {paren : Token} {arguments : List Tree} : IsExpression callee →
    (∀ t ∈ arguments, IsExpression t) →
    IsExpression (.call callee (.token paren) (.seq arguments))

/-- A statement or declaration that makes sense. -/
inductive IsStatement : Tree → Prop where
  | expression {inner : Tree} : IsExpression inner → IsStatement (.expression inner)
  | print {inner : Tree} : IsExpression inner → IsStatement (.print inner)
  | letBare {name : Token} : IsStatement (.letDecl (.token name) .null)
  | letDecl {name : Token} {initializer : Tree} : IsExpression initializer →
    IsStatement (.letDecl (.token name) initializer)
  | block {statements : List Tree} : (∀ t ∈ statements, IsStatement t) →
    IsStatement (.block (.seq statements))
  | ifThen {condition thenBranch : Tree} : IsExpression condition → IsStatement thenBranch →
    IsStatement (.ifElse condition thenBranch .null)
  | ifElse {condition thenBranch elseBranch : Tree} : IsExpression condition →
    IsStatement thenBranch → IsStatement elseBranch →
    IsStatement (.ifElse condition thenBranch elseBranch)
  | whileLoop {condition body : Tree} : IsExpression condition → IsStatement body →
    IsStatement (.whileLoop condition body)
  | function {name : Token} {params : List Token} {statements : List Tree} :
    (∀ t ∈ statements, IsStatement t) →
    IsStatement (.function (.token name) (.seq (params.map .token)) (.seq statements))

end Tree

open Script.Tree (IsConstant IsExpression IsStatement)

/-! ## 2. Sentences -/

/-- A token carries what its kind says: a number a number, and a string a string. -/
def Token.Carries (t : Token) : Prop :=
  (t.kind = .number → ∃ x, t.literal = .datum (.num x)) ∧
    (t.kind = .string → ∃ s, t.literal = .datum (.str s))

namespace Grammar

/-- The tree of a phrase makes sense. -/
def MakesSense (tree : Tree) : Phrase → Prop
  | .level _ => IsExpression tree
  | .tail _ left => IsExpression left → IsExpression tree
  | .items => ∃ trees, tree = .seq trees ∧ ∀ t ∈ trees, IsExpression t
  | .arguments => ∃ trees, tree = .seq trees ∧ ∀ t ∈ trees, IsExpression t

theorem isExpression_join {l : Level} {left right : Tree} {operator : Token}
    (hleft : IsExpression left) (hop : operator.kind ∈ l.operators) (hright : IsExpression right) :
    IsExpression (l.join left operator right) := by
  have hbinary : ∀ {ks : List Kind}, operator.kind ∈ ks → ks ⊆ Tree.binaryKinds →
      IsExpression (.binary left (.token operator) right) :=
    fun hk hks => .binary hleft (hks hk) hright
  have hlogical : ∀ {ks : List Kind}, operator.kind ∈ ks → ks ⊆ [Kind.orWord, .andWord] →
      IsExpression (.logical left (.token operator) right) :=
    fun hk hks => .logical hleft (hks hk) hright
  cases l with
  | disjunction | conjunction => exact hlogical hop (by decide)
  | elvis | equality | comparison | term | factor => exact hbinary hop (by decide)
  | _ => cases hop

theorem makesSense {p : Phrase} {ts : List Token} {tree : Tree} (h : Expression p ts tree)
    (hts : ∀ t ∈ ts, t.Carries) : MakesSense tree p := by
  induction h with
  | assign _ _ _ ih => exact .assign (ih fun t ht => hts t (by simp [ht]))
  | operand _ _ _ ihfirst ihtail =>
    exact ihtail (fun t ht => hts t (by simp [ht])) (ihfirst fun t ht => hts t (by simp [ht]))
  | stop => exact id
  | operator _ hop _ _ ihright ihtail =>
    intro hleft
    exact ihtail (fun t ht => hts t (by simp [ht]))
      (isExpression_join hleft hop (ihright fun t ht => hts t (by simp [ht])))
  | choice _ _ _ _ ihthen ihelse =>
    exact fun hcondition => .ternary hcondition (ihthen fun t ht => hts t (by simp [ht]))
      (ihelse fun t ht => hts t (by simp [ht]))
  | call _ _ _ _ iharguments ihtail =>
    intro hcallee
    obtain ⟨trees, rfl, htrees⟩ := iharguments fun t ht => hts t (by simp [ht])
    exact ihtail (fun t ht => hts t (by simp [ht])) (.call hcallee htrees)
  | noArguments => exact ⟨[], rfl, by simp⟩
  | someArguments _ _ ih => exact ih hts
  | oneItem _ ih =>
    refine ⟨_, rfl, ?_⟩
    rintro t (_ | ⟨_, ⟨⟩⟩)
    exact ih hts
  | moreItems _ _ _ ih ihmore =>
    obtain ⟨trees, htrees, hmore⟩ := ihmore fun t ht => hts t (by simp [ht])
    cases htrees
    refine ⟨_, rfl, ?_⟩
    rintro t (_ | ⟨_, ht⟩)
    · exact ih fun t ht => hts t (by simp [ht])
    · exact hmore t ht
  | sign hk _ ih => exact .unary (by simpa using hk) (ih fun t ht => hts t (by simp [ht]))
  | falseWord => exact .literal (.bool false)
  | trueWord => exact .literal (.bool true)
  | nullWord => exact .literal .null
  | constant hk =>
    obtain ⟨hnumber, hstring⟩ := hts _ List.mem_cons_self
    rcases hk with hk | hk
    · obtain ⟨x, hx⟩ := hnumber hk
      rw [hx]
      exact .literal (.num x)
    · obtain ⟨s, hs⟩ := hstring hk
      rw [hs]
      exact .literal (.str s)
  | name => exact .variable
  | grouping _ _ _ ih => exact .grouping (ih fun t ht => hts t (by simp [ht]))

theorem isStatement_binding {ts : List Token} {tree : Tree} (h : Binding ts tree)
    (hts : ∀ t ∈ ts, t.Carries) : IsStatement tree := by
  cases h with
  | bare => exact .letBare
  | initialized _ _ h _ => exact .letDecl (makesSense h fun t ht => hts t (by simp [ht]))

theorem isExpression_optional {ts : List Token} {tree : Tree} (h : Optional ts (some tree))
    (hts : ∀ t ∈ ts, t.Carries) : IsExpression tree := by
  cases h with
  | present h => exact makesSense h hts

theorem isStatement_initializer {ts : List Token} {tree : Tree} (h : Initializer ts (some tree))
    (hts : ∀ t ∈ ts, t.Carries) : IsStatement tree := by
  cases h with
  | binding _ h => exact isStatement_binding h fun t ht => hts t (by simp [ht])
  | expression h _ => exact .expression (makesSense h fun t ht => hts t (by simp [ht]))

theorem isStatement_forTree {initializer condition increment : Option Tree} {body : Tree}
    (hinitializer : ∀ tree, initializer = some tree → IsStatement tree)
    (hcondition : ∀ tree, condition = some tree → IsExpression tree)
    (hincrement : ∀ tree, increment = some tree → IsExpression tree) (hbody : IsStatement body) :
    IsStatement (forTree initializer condition increment body) := by
  have hblock : ∀ {first second : Tree}, IsStatement first → IsStatement second →
      IsStatement (.block (.seq [first, second])) := by
    intro first second hfirst hsecond
    refine .block ?_
    rintro t (_ | ⟨_, _ | ⟨_, ⟨⟩⟩⟩)
    · exact hfirst
    · exact hsecond
  have hloop : ∀ {body : Tree}, IsStatement body →
      IsStatement (.whileLoop (condition.getD (.literal (.bool true))) body) := by
    intro body hbody
    cases condition with
    | none => exact .whileLoop (.literal (.bool true)) hbody
    | some tree => exact .whileLoop (hcondition tree rfl) hbody
  cases initializer with
  | none =>
    cases increment with
    | none => exact hloop hbody
    | some increment => exact hloop (hblock hbody (.expression (hincrement _ rfl)))
  | some initializer =>
    have hfirst := hinitializer initializer rfl
    cases increment with
    | none => exact hblock hfirst (hloop hbody)
    | some increment =>
      exact hblock hfirst (hloop (hblock hbody (.expression (hincrement _ rfl))))

/-- The tree of a form makes sense. -/
def FormMakesSense (tree : Tree) : Form → Prop
  | .declarations => ∃ trees, tree = .seq trees ∧ ∀ t ∈ trees, IsStatement t
  | .declaration => IsStatement tree
  | .statement _ => IsStatement tree

theorem formMakesSense {f : Form} {ts : List Token} {tree : Tree} (h : Statement f ts tree)
    (hts : ∀ t ∈ ts, t.Carries) : FormMakesSense tree f := by
  induction h with
  | none => exact ⟨[], rfl, by simp⟩
  | more _ _ ih ihmore =>
    obtain ⟨trees, htrees, hmore⟩ := ihmore fun t ht => hts t (by simp [ht])
    cases htrees
    refine ⟨_, rfl, ?_⟩
    rintro t (_ | ⟨_, ht⟩)
    · exact ih fun t ht => hts t (by simp [ht])
    · exact hmore t ht
  | function _ _ _ _ _ _ _ _ ih =>
    obtain ⟨trees, rfl, htrees⟩ := ih fun t ht => hts t (by simp [ht])
    exact .function htrees
  | binding _ h => exact isStatement_binding h fun t ht => hts t (by simp [ht])
  | statement _ ih => exact ih hts
  | forLoop _ _ hfirst hsecond _ hthird _ _ ih =>
    refine isStatement_forTree ?_ ?_ ?_ (ih fun t ht => hts t (by simp [ht]))
    · rintro tree rfl
      exact isStatement_initializer hfirst fun t ht => hts t (by simp [ht])
    · rintro tree rfl
      exact isExpression_optional hsecond fun t ht => hts t (by simp [ht])
    · rintro tree rfl
      exact isExpression_optional hthird fun t ht => hts t (by simp [ht])
  | ifThen _ _ h _ _ ih =>
    exact .ifThen (makesSense h fun t ht => hts t (by simp [ht]))
      (ih fun t ht => hts t (by simp [ht]))
  | ifElse _ _ h _ _ _ _ ihthen ihelse =>
    exact .ifElse (makesSense h fun t ht => hts t (by simp [ht]))
      (ihthen fun t ht => hts t (by simp [ht])) (ihelse fun t ht => hts t (by simp [ht]))
  | print _ _ h _ _ => exact .print (makesSense h fun t ht => hts t (by simp [ht]))
  | whileLoop _ _ h _ _ ih =>
    exact .whileLoop (makesSense h fun t ht => hts t (by simp [ht]))
      (ih fun t ht => hts t (by simp [ht]))
  | block _ _ _ ih =>
    obtain ⟨trees, rfl, htrees⟩ := ih fun t ht => hts t (by simp [ht])
    exact .block htrees
  | expression h _ => exact .expression (makesSense h fun t ht => hts t (by simp [ht]))

end Grammar

/-! ## 3. Source text -/

/-- A mark is no number and no string. -/
def Segment.MarksOnly : Segment → Prop
  | .mark kind => kind ≠ .number ∧ kind ≠ .string
  | _ => True

namespace Segment

theorem marksOnly_cutMark? {c : Char} {rest : List Char} {r : Segment × List Char}
    (h : cutMark? c rest = some r) : r.1.MarksOnly := by
  have hlone : ∀ {k : Kind}, lone? c = some k → k ≠ .number ∧ k ≠ .string := by
    intro k hk
    have hrows : ∀ row ∈ lones, row.2 ≠ .number ∧ row.2 ≠ .string := by decide
    exact hrows _ (mem_of_lookup hk)
  have hlone' : ∀ {after : List Char},
      (lone? c).map (fun kind => (Segment.mark kind, after)) = some r → r.1.MarksOnly := by
    intro after h
    obtain ⟨k, hk, rfl⟩ := Option.map_eq_some_iff.mp h
    exact hlone hk
  unfold cutMark? at h
  split at h
  · split at h
    · rename_i d after k hk
      cases h
      show k ≠ .number ∧ k ≠ .string
      have hrows : ∀ row ∈ pairs, row.2 ≠ .number ∧ row.2 ≠ .string := by decide
      exact hrows _ (mem_of_lookup hk)
    · exact hlone' h
  · exact hlone' h

theorem marksOnly_cut (c : Char) (rest : List Char) : (cut c rest).1.MarksOnly := by
  unfold cut
  split
  · trivial
  split
  · unfold cutText
    split <;> trivial
  split
  · unfold cutSlash
    split
    · trivial
    · split <;> trivial
    · exact ⟨by decide, by decide⟩
  split
  · unfold cutNumber
    dsimp only
    split
    · split <;> trivial
    · trivial
  split
  · trivial
  · cases h : cutMark? c rest with
    | none => trivial
    | some r => exact marksOnly_cutMark? h

theorem marksOnly_cutAll : ∀ (n : Nat) (cs : List Char), ∀ s ∈ cutAll n cs, s.MarksOnly
  | 0, _, s, hs => by cases hs
  | _ + 1, [], s, hs => by cases hs
  | n + 1, c :: rest, s, hs => by
    rcases List.mem_cons.mp hs with rfl | hs
    · exact marksOnly_cut c rest
    · exact marksOnly_cutAll n _ s hs

/-- What a segment makes carries what its kind says. -/
theorem carries_token? {s : Segment} (hs : s.MarksOnly) {kind : Kind} {literal : Datum}
    (h : s.token? = some (kind, literal)) (line column : Nat) :
    (Token.placed kind literal line column).Carries := by
  have hother : kind ≠ .number → kind ≠ .string →
      (Token.placed kind literal line column).Carries :=
    fun hn hs => ⟨fun h => absurd h hn, fun h => absurd h hs⟩
  cases s with
  | text body =>
    cases h
    exact ⟨by simp [Token.placed], fun _ => ⟨_, rfl⟩⟩
  | number digits fraction =>
    cases h
    exact ⟨fun _ => ⟨_, rfl⟩, by simp [Token.placed]⟩
  | word cs =>
    simp only [token?] at h
    split at h
    · rename_i k hk
      cases h
      have hmem : kind ∈ Kind.keywords := List.mem_of_find?_eq_some hk
      have hne : ∀ k, k ∉ Kind.keywords → kind ≠ k := by
        rintro k hk rfl
        exact hk hmem
      exact hother (hne _ (by decide)) (hne _ (by decide))
    · cases h
      exact hother (by decide) (by decide)
  | mark k =>
    cases h
    exact hother hs.1 hs.2
  | blank | lineComment | blockComment | openComment | openText | stray => cases h

end Segment

theorem carries_scanFrom : ∀ (segments : List Segment) (p : Position),
    (∀ s ∈ segments, s.MarksOnly) → ∀ t ∈ (scanFrom p segments).tokens, t.Carries
  | [], p, _, t, ht => by
    obtain rfl := List.mem_singleton.mp ht
    exact ⟨by simp [Token.placed], by simp [Token.placed]⟩
  | s :: rest, p, hs, t, ht => by
    rcases List.mem_append.mp ht with ht | ht
    · obtain ⟨⟨kind, literal⟩, htoken, rfl⟩ := Option.map_eq_some_iff.mp (Option.mem_toList.mp ht)
      exact Segment.carries_token? (hs s List.mem_cons_self) htoken _ _
    · exact carries_scanFrom rest _ (fun s h => hs s (List.mem_cons_of_mem _ h)) t ht

theorem carries_scan (source : String) : ∀ t ∈ (scan source).tokens, t.Carries := by
  rw [scan_eq]
  exact carries_scanFrom _ _ (Segment.marksOnly_cutAll _ _)

/-- The statements of a source text without an error are those of a sentence of its tokens. -/
theorem ofSource_sentence {depth : Nat} {source : String}
    (h : (Program.ofSource depth source).errors = []) :
    ∃ ts, ts ⊆ (scan source).tokens ∧
      Grammar.Sentence ts (Program.ofSource depth source).statements := by
  unfold Program.ofSource at h ⊢
  unfold Program.ofTokens? at h ⊢
  dsimp only at h ⊢
  generalize hread : Parser.program depth (scan source).tokens = r at h ⊢
  cases r with
  | failed => exact ⟨[], List.nil_subset _, .none⟩
  | ranOut => exact ⟨[], List.nil_subset _, .none⟩
  | done statements rest errors =>
    obtain rfl := (List.append_eq_nil_iff.mp h).2
    obtain ⟨ts, hts, hsentence⟩ := Parser.program_reads depth hread
    rw [hts]
    exact ⟨ts, List.subset_append_left _ _, hsentence⟩

/-- What is read off a source text without an error makes sense. -/
theorem ofSource_isStatement {depth : Nat} {source : String}
    (h : (Program.ofSource depth source).errors = []) :
    ∀ t ∈ (Program.ofSource depth source).statements, IsStatement t := by
  obtain ⟨ts, hts, hsentence⟩ := ofSource_sentence h
  obtain ⟨trees, htrees, hall⟩ := Grammar.formMakesSense hsentence fun t ht =>
    carries_scan source t (hts ht)
  cases htrees
  exact hall

end Script
