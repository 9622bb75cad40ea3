/-
# Laws of the store

Scopes form trees: many chains of scopes share their outer ends, and a name that is bound in one
scope is seen from all scopes within, unless a nearer one binds it too.  The laws say what one
definition or assignment changes as seen from any scope, in any store that definitions, assignments
and new scopes lead to (`Store.Built`), whether they succeed or fail.

What is seen from a scope is described apart from the search: `IsChain` follows the scopes out to an
outermost one, `Nearest` is the first of them that binds a name.  The search of the store is bounded
by the number of the scope it starts from; since scopes lie within ones of smaller numbers, it gets
to the end of the chain all the same (`Linked`).

Main result: `Store.built_laws`.
-/
import Script.Proofs.Run.Restoration

namespace Script

/-! ## 1. Names -/

namespace Scope

theorem isSome_find? (s : Scope) (name : String) : (s.find? name).isSome ↔ name ∈ s.names := by
  rw [find?, List.lookup_isSome_iff, names, List.mem_map]
  simp only [beq_iff_eq, eq_comm (a := name)]

theorem find?_bind (s : Scope) (name : String) (v : Value) (other : String) :
    (s.bind name v).find? other = (s.find? other).or (if other = name then some v else none) := by
  rw [find?, bind, List.lookup_append, find?, List.lookup_cons]
  by_cases h : other = name
  · rw [if_pos h, beq_iff_eq.mpr h]
  · rw [if_neg h, beq_eq_false_iff_ne.mpr h, List.lookup_nil]

theorem find?_set (s : Scope) (name : String) (v : Value) (other : String) :
    (s.set name v).find? other =
      if other = name then (s.find? other).map fun _ => v else s.find? other := by
  unfold find? set
  induction s.bindings with
  | nil => by_cases h : other = name <;> simp [h]
  | cons b rest ih =>
    obtain ⟨n, old⟩ := b
    simp only [List.map_cons, List.lookup_cons, ih]
    by_cases hn : other = n
    · subst hn
      by_cases h : other = name <;> simp [h]
    · simp [beq_eq_false_iff_ne.mpr hn]

end Scope

namespace Store

/-- The names that a scope binds, in the order of their definition. -/
def names (s : Store) (e : ScopeId) : List String := (s.bindings e).map (·.1)

variable {s s' : Store} {e e' : ScopeId} {name : String} {v : Value} {scope : Scope}

theorem names_eq (s : Store) (e : ScopeId) :
    s.names e = ((s.scopes[e]?).map Scope.names).getD [] := by
  unfold names bindings
  cases s.scopes[e]? <;> rfl

theorem names_of_getElem? (h : s.scopes[e]? = some scope) : s.names e = scope.names := by
  rw [names_eq, h, Option.map_some, Option.getD_some]

theorem names_of_none (h : s.scopes[e]? = none) : s.names e = [] := by
  rw [names_eq, h, Option.map_none, Option.getD_none]

theorem binds_iff : s.binds name e = true ↔ name ∈ s.names e := by
  unfold binds
  cases h : s.scopes[e]? with
  | none => simp [names_of_none h]
  | some scope =>
    rw [names_of_getElem? h]
    exact scope.isSome_find? name

theorem binds_eq (s : Store) (name : String) (e : ScopeId) :
    s.binds name e = ((s.scopes[e]?).bind (·.find? name)).isSome := by
  unfold binds
  cases s.scopes[e]? <;> rfl

theorem binds_of_names (h : s'.names e' = s.names e) : s'.binds name e' = s.binds name e := by
  rw [Bool.eq_iff_iff, binds_iff, binds_iff, h]

theorem exists_of_binds (h : s.binds name e = true) : ∃ scope, s.scopes[e]? = some scope := by
  unfold binds at h
  split at h
  · exact ⟨_, ‹_›⟩
  · cases h

/-- The store with one scope changed. -/
def change (s : Store) (e : ScopeId) (f : Scope → Scope) : Store := ⟨s.scopes.modify e f⟩

theorem getElem?_change (s : Store) (e : ScopeId) (f : Scope → Scope) (e' : ScopeId) :
    (s.change e f).scopes[e']? = if e = e' then (s.scopes[e']?).map f else s.scopes[e']? :=
  Array.getElem?_modify

theorem define?_eq_some_iff : s.define? e name v = some s' ↔
    s.binds name e = false ∧ s' = s.change e (Scope.bind · name v) := by
  unfold define? change
  by_cases h : s.binds name e = true
  · simp [h]
  · simp [h, eq_comm]

theorem assign?_eq_some_iff : s.assign? e name v = some s' ↔
    ∃ o, s.owner? e name = some o ∧ s' = s.change o (Scope.set · name v) := by
  unfold assign? change
  rw [Option.map_eq_some_iff]
  simp only [eq_comm (a := s')]

/-! ## 2. Chains -/

/-- Each scope lies within one of a smaller number. -/
def Linked (s : Store) : Prop :=
  ∀ (e : ScopeId) (scope : Scope) (outer : ScopeId), s.scopes[e]? = some scope →
    scope.enclosing = some outer → outer < e

/-- The scopes that a scope lies within, out to an outermost one. -/
inductive IsChain (s : Store) : ScopeId → List ScopeId → Prop where
  | outermost {e : ScopeId} {scope : Scope} : s.scopes[e]? = some scope →
    scope.enclosing = none → IsChain s e [e]
  | within {e outer : ScopeId} {scope : Scope} {chain : List ScopeId} :
    s.scopes[e]? = some scope → scope.enclosing = some outer → IsChain s outer chain →
    IsChain s e (e :: chain)

/-- The search goes on until there is nothing more to be searched. -/
theorem Linked.isChain_chainFrom (h : s.Linked) : ∀ (n : Nat) (e : ScopeId), e < n → e < s.size →
    s.IsChain e (s.chainFrom n e)
  | 0, _, hn, _ => absurd hn (Nat.not_lt_zero _)
  | n + 1, e, hn, he => by
    obtain ⟨scope, hscope⟩ : ∃ scope, s.scopes[e]? = some scope :=
      ⟨s.scopes[e], Array.getElem?_eq_getElem he⟩
    simp only [chainFrom, hscope]
    cases houter : scope.enclosing with
    | none => exact .outermost hscope houter
    | some outer =>
      have hlt : outer < e := h e scope outer hscope houter
      exact .within hscope houter (h.isChain_chainFrom n outer
        (Nat.lt_of_lt_of_le hlt (Nat.le_of_lt_succ hn)) (Nat.lt_trans hlt he))

theorem Linked.isChain_chain (h : s.Linked) (he : e < s.size) : s.IsChain e (s.chain e) :=
  h.isChain_chainFrom (e + 1) e (Nat.lt_succ_self e) he

theorem IsChain.length_pos {chain : List ScopeId} (h : s.IsChain e chain) : 0 < chain.length := by
  cases h <;> exact Nat.zero_lt_succ _

/-- Stores whose scopes lie within one another in the same way have the same chains. -/
theorem chainFrom_congr (h : ∀ e : ScopeId,
    (s'.scopes[e]?).map (·.enclosing) = (s.scopes[e]?).map (·.enclosing)) :
    ∀ (n : Nat) (e : ScopeId), s'.chainFrom n e = s.chainFrom n e
  | 0, _ => rfl
  | n + 1, e => by
    have he := h e
    rw [chainFrom, chainFrom]
    cases hs : s.scopes[e]? with
    | none =>
      rw [hs, Option.map_none, Option.map_eq_none_iff] at he
      rw [he]
    | some scope =>
      rw [hs, Option.map_some, Option.map_eq_some_iff] at he
      obtain ⟨scope', hs', henclosing⟩ := he
      simp only [hs', henclosing, chainFrom_congr h n]

theorem Linked.congr (henclosing : ∀ e : ScopeId,
    (s'.scopes[e]?).map (·.enclosing) = (s.scopes[e]?).map (·.enclosing)) (h : s.Linked) :
    s'.Linked := by
  intro e scope outer hscope houter
  have he := henclosing e
  rw [hscope, Option.map_some, houter] at he
  obtain ⟨before, hbefore, heq⟩ := Option.map_eq_some_iff.mp he.symm
  exact h e before outer hbefore heq

/-- A store that has grown has its scopes where they were. -/
theorem Grows.enclosing (h : s.Grows s') (e : ScopeId) :
    (s'.scopes[e]?).map (·.enclosing) = (s.scopes[e]?).map (·.enclosing) := by
  cases hs : s.scopes[e]? with
  | none =>
    have hsize : s'.size ≤ e := h.size ▸ Array.getElem?_eq_none_iff.mp hs
    rw [Array.getElem?_eq_none hsize]
  | some scope =>
    obtain ⟨scope', hs', hgrows⟩ := h.scopes e scope hs
    rw [hs', Option.map_some, Option.map_some, hgrows.enclosing]

section Change

variable {f : Scope → Scope} (hf : ∀ scope : Scope, (f scope).enclosing = scope.enclosing)

include hf

theorem enclosing_change (e e' : ScopeId) :
    ((s.change e f).scopes[e']?).map (·.enclosing) = (s.scopes[e']?).map (·.enclosing) := by
  rw [getElem?_change]
  split
  · rw [Option.map_map]
    exact congrArg (Option.map · _) (funext hf)
  · rfl

theorem chain_change (e e' : ScopeId) : (s.change e f).chain e' = s.chain e' :=
  chainFrom_congr (enclosing_change hf e) _ _

theorem Linked.change (h : s.Linked) (e : ScopeId) : (s.change e f).Linked :=
  h.congr (enclosing_change hf e)

end Change

/-! ## 3. The nearest scope that binds a name -/

/-- `o` is the first scope on the chain of a scope that binds a name. -/
inductive Nearest (s : Store) (name : String) : ScopeId → ScopeId → Prop where
  | here {e : ScopeId} : name ∈ s.names e → Nearest s name e e
  | outer {e outer o : ScopeId} {scope : Scope} : name ∉ s.names e → s.scopes[e]? = some scope →
    scope.enclosing = some outer → Nearest s name outer o → Nearest s name e o

theorem nearest_here (h : name ∈ s.names e) {o : ScopeId} : s.Nearest name e o ↔ e = o := by
  constructor
  · intro hnearest
    cases hnearest with
    | here => rfl
    | outer hnot => exact absurd h hnot
  · rintro rfl
    exact .here h

theorem nearest_outer (h : name ∉ s.names e) (hscope : s.scopes[e]? = some scope) {o : ScopeId} :
    s.Nearest name e o ↔ ∃ outer, scope.enclosing = some outer ∧ s.Nearest name outer o := by
  constructor
  · intro hnearest
    cases hnearest with
    | here hin => exact absurd hin h
    | outer _ hscope' houter hrest =>
      rw [hscope, Option.some_inj] at hscope'
      exact ⟨_, hscope' ▸ houter, hrest⟩
  · rintro ⟨outer, houter, hrest⟩
    exact .outer h hscope houter hrest

theorem IsChain.find?_eq_some_iff {chain : List ScopeId} (h : s.IsChain e chain) {o : ScopeId} :
    chain.find? (s.binds name) = some o ↔ s.Nearest name e o := by
  induction h with
  | @outermost e scope hscope houter =>
    by_cases hname : name ∈ s.names e
    · rw [List.find?_cons_of_pos (binds_iff.mpr hname), nearest_here hname, Option.some_inj]
    · rw [List.find?_cons_of_neg (mt binds_iff.mp hname), nearest_outer hname hscope, houter]
      simp
  | @within e outer scope chain hscope houter _ ih =>
    by_cases hname : name ∈ s.names e
    · rw [List.find?_cons_of_pos (binds_iff.mpr hname), nearest_here hname, Option.some_inj]
    · rw [List.find?_cons_of_neg (mt binds_iff.mp hname), nearest_outer hname hscope, houter, ih]
      simp

/-- The search finds the nearest scope that binds a name. -/
theorem Linked.owner?_eq_some_iff (h : s.Linked) {o : ScopeId} :
    s.owner? e name = some o ↔ s.Nearest name e o := by
  by_cases he : e < s.size
  · exact (h.isChain_chain he).find?_eq_some_iff
  · have hnone : s.scopes[e]? = none := Array.getElem?_eq_none (Nat.not_lt.mp he)
    rw [owner?, chain, chainFrom, hnone]
    constructor
    · intro hfound
      cases hfound
    · intro hnearest
      cases hnearest with
      | here hin =>
        rw [names_of_none hnone] at hin
        cases hin
      | outer _ hscope => cases hnone.symm.trans hscope

/-- Where a name is found depends only on how scopes lie and on the names in them. -/
theorem Grows.owner?_eq (h : s.Grows s') (hnames : ∀ e, s'.names e = s.names e) (e : ScopeId)
    (name : String) : s'.owner? e name = s.owner? e name := by
  have hbinds : s'.binds name = s.binds name := by
    funext e
    rw [Bool.eq_iff_iff, binds_iff, binds_iff, hnames]
  rw [owner?, owner?, chain, chain, chainFrom_congr h.enclosing, hbinds]

/-! ## 4. Assignments -/

theorem names_change (s : Store) (e : ScopeId) (f : Scope → Scope) (e' : ScopeId) :
    (s.change e f).names e' =
      if e = e' then ((s.scopes[e']?).map (Scope.names ∘ f)).getD [] else s.names e' := by
  rw [names_eq, getElem?_change]
  split
  · rw [Option.map_map]
  · rw [names_eq]

theorem names_assign? (h : s.assign? e name v = some s') (e' : ScopeId) :
    s'.names e' = s.names e' := by
  obtain ⟨o, -, rfl⟩ := assign?_eq_some_iff.mp h
  have hset : Scope.names ∘ (Scope.set · name v) = Scope.names :=
    funext fun scope => scope.names_set name v
  rw [names_change, hset, ← names_eq, ite_self]

theorem Linked.assign? (hs : s.Linked) (h : s.assign? e name v = some s') : s'.Linked := by
  obtain ⟨o, -, rfl⟩ := assign?_eq_some_iff.mp h
  exact hs.change (f := (Scope.set · name v)) (fun _ => rfl) o

/-- Nothing that an assignment does makes another scope the nearest one. -/
theorem owner?_assign? (h : s.assign? e name v = some s') (e' : ScopeId) (other : String) :
    s'.owner? e' other = s.owner? e' other := by
  have hbinds : s'.binds other = s.binds other :=
    funext fun e' => binds_of_names (names_assign? h e')
  obtain ⟨o, -, rfl⟩ := assign?_eq_some_iff.mp h
  rw [owner?, owner?, hbinds, chain_change (f := (Scope.set · name v)) fun _ => rfl]

/-- The value of a name is the one that it has in the nearest scope. -/
theorem get?_of_owner? {o : ScopeId} (h : s.owner? e name = some o) :
    s.get? e name = (s.scopes[o]?).bind (·.find? name) := by
  rw [get?, h]
  rfl

theorem get?_of_not_owner? (h : s.owner? e name = none) : s.get? e name = none := by
  rw [get?, h]
  rfl

theorem exists_find?_of_owner? {o : ScopeId} (h : s.owner? e name = some o) :
    ∃ scope v, s.scopes[o]? = some scope ∧ scope.find? name = some v := by
  have hbinds : s.binds name o = true := List.find?_some h
  obtain ⟨scope, hscope⟩ := exists_of_binds hbinds
  rw [binds, hscope] at hbinds
  obtain ⟨v, hv⟩ := Option.isSome_iff_exists.mp hbinds
  exact ⟨scope, v, hscope, hv⟩

/-- What an assignment changes: the name, as seen from all scopes to which the same scope is the
nearest that binds it. -/
theorem get?_assign? (h : s.assign? e name v = some s') (e' : ScopeId) (other : String) :
    s'.get? e' other = if other = name ∧ s.owner? e' name = s.owner? e name then some v
      else s.get? e' other := by
  have howner := owner?_assign? h e' other
  obtain ⟨o, ho, rfl⟩ := assign?_eq_some_iff.mp h
  cases hother : s.owner? e' other with
  | none =>
    rw [get?_of_not_owner? (howner.trans hother), get?_of_not_owner? hother]
    rw [if_neg]
    rintro ⟨rfl, hsame⟩
    cases (hother.symm.trans hsame).trans ho
  | some o' =>
    obtain ⟨scope, old, hscope, hold⟩ := exists_find?_of_owner? hother
    rw [get?_of_owner? (howner.trans hother), get?_of_owner? hother, getElem?_change, hscope]
    by_cases hsame : o = o'
    · subst hsame
      rw [if_pos rfl, Option.map_some, Option.bind_some, Option.bind_some, Scope.find?_set]
      by_cases hname : other = name
      · subst hname
        rw [if_pos rfl, if_pos ⟨rfl, hother.trans ho.symm⟩, hold, Option.map_some]
      · rw [if_neg hname, if_neg fun hboth => hname hboth.1]
    · rw [if_neg hsame, if_neg]
      rintro ⟨rfl, heq⟩
      exact hsame (Option.some.inj (ho.symm.trans (heq.symm.trans hother)))

/-! ## 5. Definitions -/

theorem not_mem_of_define? (h : s.define? e name v = some s') : name ∉ s.names e := by
  rw [← binds_iff, (define?_eq_some_iff.mp h).1]
  exact Bool.false_ne_true

theorem names_define?_of_ne (h : s.define? e name v = some s') {e' : ScopeId} (hne : e' ≠ e) :
    s'.names e' = s.names e' := by
  obtain ⟨-, rfl⟩ := define?_eq_some_iff.mp h
  rw [names_change, if_neg (Ne.symm hne)]

theorem names_define? (h : s.define? e name v = some s') (he : e < s.size) :
    s'.names e = s.names e ++ [name] := by
  obtain ⟨-, rfl⟩ := define?_eq_some_iff.mp h
  have hscope : s.scopes[e]? = some s.scopes[e] := Array.getElem?_eq_getElem he
  rw [names_change, if_pos rfl, names_of_getElem? hscope, hscope, Option.map_some, Option.getD_some]
  simp [Scope.names, Scope.bind]

theorem names_of_size_le (h : s.size ≤ e) : s.names e = [] :=
  names_of_none (Array.getElem?_eq_none h)

theorem nodup_define? (h : s.define? e name v = some s') {e' : ScopeId}
    (hnodup : (s.names e').Nodup) : (s'.names e').Nodup := by
  by_cases hne : e' = e
  · subst hne
    by_cases he : e' < s.size
    · rw [names_define? h he, List.nodup_append]
      refine ⟨hnodup, by simp, fun a ha b hb heq => not_mem_of_define? h ?_⟩
      rwa [← List.mem_singleton.mp hb, ← heq]
    · obtain ⟨-, rfl⟩ := define?_eq_some_iff.mp h
      have hsize : (s.change e' (Scope.bind · name v)).size ≤ e' := by
        rw [size, change, Array.size_modify]
        exact Nat.not_lt.mp he
      rw [names_of_size_le hsize]
      exact List.nodup_nil
  · rw [names_define?_of_ne h hne]
    exact hnodup

theorem Linked.define? (hs : s.Linked) (h : s.define? e name v = some s') : s'.Linked := by
  obtain ⟨-, rfl⟩ := define?_eq_some_iff.mp h
  exact hs.change (f := (Scope.bind · name v)) (fun _ => rfl) e

/-- Where a search with one more hit does not end there, it ends where it did. -/
theorem find?_of_ne {α : Type} {p q : α → Bool} {a : α} (hp : p a = false)
    (hq : ∀ b, b ≠ a → q b = p b) : ∀ {l : List α}, l.find? q ≠ some a → l.find? q = l.find? p
  | [], _ => rfl
  | b :: rest, h => by
    by_cases hb : b = a
    · subst hb
      by_cases hqb : q b = true
      · exact absurd (List.find?_cons_of_pos hqb) h
      · rw [List.find?_cons_of_neg hqb] at h ⊢
        rw [List.find?_cons_of_neg (by rw [hp]; exact Bool.false_ne_true)]
        exact find?_of_ne hp hq h
    · rw [List.find?_cons, List.find?_cons, hq b hb] at *
      cases hpb : p b with
      | true => rfl
      | false =>
        rw [hpb] at h
        exact find?_of_ne hp hq h

/-- A definition changes one name in one scope. -/
theorem find?_define? (h : s.define? e name v = some s') {e' : ScopeId} {other : String}
    (hne : e ≠ e' ∨ other ≠ name) :
    (s'.scopes[e']?).bind (·.find? other) = (s.scopes[e']?).bind (·.find? other) := by
  obtain ⟨-, rfl⟩ := define?_eq_some_iff.mp h
  rw [getElem?_change]
  by_cases he : e = e'
  · have hname : other ≠ name := hne.resolve_left (absurd he)
    rw [if_pos he]
    cases s.scopes[e']? with
    | none => rfl
    | some scope => rw [Option.map_some, Option.bind_some, Option.bind_some, Scope.find?_bind,
        if_neg hname, Option.or_none]
  · rw [if_neg he]

/-- A definition makes its own scope the nearest one, or none that was not. -/
theorem owner?_define? (h : s.define? e name v = some s') {e' : ScopeId} {other : String}
    (hne : s'.owner? e' other ≠ some e ∨ other ≠ name) :
    s'.owner? e' other = s.owner? e' other := by
  have hbinds : ∀ {e' : ScopeId}, e ≠ e' ∨ other ≠ name → s'.binds other e' = s.binds other e' := by
    intro e' hne
    rw [binds_eq, binds_eq, find?_define? h hne]
  have hchain : s'.chain e' = s.chain e' := by
    obtain ⟨-, rfl⟩ := define?_eq_some_iff.mp h
    exact chain_change (f := (Scope.bind · name v)) (fun _ => rfl) e e'
  rw [owner?, hchain] at hne ⊢
  by_cases hname : other = name
  · subst hname
    have hnew : s.binds other e = false := (define?_eq_some_iff.mp h).1
    refine find?_of_ne hnew (fun b hb => hbinds (.inl (Ne.symm hb))) ?_
    exact hne.resolve_right (absurd rfl)
  · exact congrArg (List.find? · _) (funext fun b => hbinds (.inr hname))

/-- What a definition changes: the name, as seen from all scopes to which its own scope is now the
nearest that binds it. -/
theorem get?_define? (h : s.define? e name v = some s') (e' : ScopeId) (other : String) :
    s'.get? e' other = if other = name ∧ s'.owner? e' name = some e then some v
      else s.get? e' other := by
  by_cases hown : other = name ∧ s'.owner? e' name = some e
  · obtain ⟨rfl, howner⟩ := hown
    rw [if_pos ⟨rfl, howner⟩, get?_of_owner? howner]
    obtain ⟨hnew, rfl⟩ := define?_eq_some_iff.mp h
    obtain ⟨scope', -, hscope', -⟩ := exists_find?_of_owner? howner
    rw [getElem?_change, if_pos rfl] at hscope' ⊢
    obtain ⟨scope, hscope, rfl⟩ := Option.map_eq_some_iff.mp hscope'
    rw [binds_eq, hscope, Option.bind_some, Option.isSome_eq_false_iff, Option.isNone_iff_eq_none]
      at hnew
    rw [hscope', Option.bind_some, Scope.find?_bind, hnew, if_pos rfl, Option.none_or]
  · rw [if_neg hown]
    have hne : s'.owner? e' other ≠ some e ∨ other ≠ name := by
      by_cases hname : other = name
      · exact .inl fun howner => hown ⟨hname, hname ▸ howner⟩
      · exact .inr hname
    have howner := owner?_define? h hne
    cases hother : s.owner? e' other with
    | none => rw [get?_of_not_owner? (howner.trans hother), get?_of_not_owner? hother]
    | some o =>
      rw [get?_of_owner? (howner.trans hother), get?_of_owner? hother]
      refine find?_define? h (hne.imp_left fun hne heq => hne ?_)
      rw [howner, hother, heq]

/-! ## 6. Histories -/

/-- What is done to a store, one after another. -/
inductive Operation where
  /-- Add a scope. -/
  | scope (enclosing : Option ScopeId)
  | define (e : ScopeId) (name : Token) (v : Value)
  | assign (e : ScopeId) (name : Token) (v : Value)

namespace Operation

/-- The scopes that an operation is about are among the first `size`. -/
def Refers (size : Nat) : Operation → Prop
  | .scope enclosing => ∀ outer ∈ enclosing, outer < size
  | .define e _ _ | .assign e _ _ => e < size

instance (size : Nat) : (op : Operation) → Decidable (op.Refers size)
  | .scope none => .isTrue fun _ h => by cases h
  | .scope (some outer) => decidable_of_iff (outer < size) (by simp [Refers])
  | .define e _ _ | .assign e _ _ => inferInstanceAs (Decidable (e < size))

/-- The name that an operation is to define in a scope. -/
def defines? (e : ScopeId) : Operation → Option String
  | .define e' name _ => if e' = e then some name.lexeme else none
  | _ => none

end Operation

/-- The store after an operation; one that fails changes nothing. -/
def perform (s : Store) : Operation → Store
  | .scope enclosing => s.add enclosing
  | .define e name v => (s.define e name v).toOption.getD s
  | .assign e name v => (s.assign e name v).toOption.getD s

/-- The stores that operations lead to, if each is about scopes that are there. -/
inductive Built : List Operation → Store → Prop where
  | empty : Built [] .empty
  | step {history : List Operation} {s : Store} : Built history s → ∀ op : Operation,
    op.Refers s.size → Built (history ++ [op]) (s.perform op)

theorem define_eq (s : Store) (e : ScopeId) (name : Token) (v : Value) :
    s.define e name v = (s.define? e name.lexeme v).elim
      (.error ⟨name, (Cause.alreadyDefined name.lexeme).message⟩) .ok := by
  unfold define
  cases s.define? e name.lexeme v <;> rfl

theorem assign_eq (s : Store) (e : ScopeId) (name : Token) (v : Value) :
    s.assign e name v = (s.assign? e name.lexeme v).elim
      (.error ⟨name, (Cause.undefined name.lexeme).message⟩) .ok := by
  unfold assign
  cases s.assign? e name.lexeme v <;> rfl

theorem get_eq (s : Store) (e : ScopeId) (name : Token) :
    s.get e name = (s.get? e name.lexeme).elim
      (.error ⟨name, (Cause.undefined name.lexeme).message⟩) .ok := by
  unfold get
  cases s.get? e name.lexeme <;> rfl

/-- What an operation does, if anything. -/
inductive Does (s : Store) : Operation → Store → Prop where
  | scope (enclosing : Option ScopeId) : Does s (.scope enclosing) (s.add enclosing)
  | define {e : ScopeId} {name : Token} {v : Value} {s' : Store} :
    s.define? e name.lexeme v = some s' → Does s (.define e name v) s'
  | defined {e : ScopeId} {name : Token} {v : Value} : name.lexeme ∈ s.names e →
    Does s (.define e name v) s
  | assign {e : ScopeId} {name : Token} {v : Value} {s' : Store} :
    s.assign? e name.lexeme v = some s' → Does s (.assign e name v) s'
  | undefined {e : ScopeId} {name : Token} {v : Value} : Does s (.assign e name v) s

theorem does_perform (s : Store) (op : Operation) : s.Does op (s.perform op) := by
  cases op with
  | scope enclosing => exact .scope enclosing
  | define e name v =>
    rw [perform, define_eq]
    cases h : s.define? e name.lexeme v with
    | some s' => exact .define h
    | none =>
      refine .defined (binds_iff.mp ?_)
      unfold define? at h
      split at h
      · assumption
      · cases h
  | assign e name v =>
    rw [perform, assign_eq]
    cases h : s.assign? e name.lexeme v with
    | some s' => exact .assign h
    | none => exact .undefined

theorem Linked.add (h : s.Linked) {enclosing : Option ScopeId}
    (hsize : ∀ outer ∈ enclosing, outer < s.size) : (s.add enclosing).Linked := by
  intro e scope outer hscope houter
  rw [Store.add, Array.getElem?_push] at hscope
  split at hscope
  · cases hscope
    subst e
    exact hsize outer houter
  · exact h e scope outer hscope houter

theorem names_add (s : Store) (enclosing : Option ScopeId) (e : ScopeId) :
    (s.add enclosing).names e = s.names e := by
  by_cases he : e = s.size
  · have hnew : (s.add enclosing).scopes[e]? = some ⟨enclosing, []⟩ :=
      Array.getElem?_push.trans (if_pos he)
    have hnone : s.scopes[e]? = none := Array.getElem?_eq_none (Nat.le_of_eq he.symm)
    rw [names_of_getElem? hnew, names_of_none hnone]
    rfl
  · have hold : (s.add enclosing).scopes[e]? = s.scopes[e]? :=
      Array.getElem?_push.trans (if_neg he)
    rw [names_eq, names_eq, hold]

theorem Built.linked {history : List Operation} (h : Built history s) : s.Linked := by
  induction h with
  | empty =>
    intro e scope outer hscope
    cases hscope
  | @step history s _ op hop ih =>
    have hdoes := s.does_perform op
    generalize s.perform op = s' at hdoes ⊢
    cases hdoes with
    | scope enclosing => exact ih.add hop
    | define h => exact ih.define? h
    | assign h => exact ih.assign? h
    | defined | undefined => exact ih

/-- What an operation adds to the names of a scope: the one it is to define there, if that is
new. -/
theorem names_perform {op : Operation} (hop : op.Refers s.size) (e : ScopeId) :
    (s.perform op).names e = (op.defines? e).elim (s.names e) fun name =>
      if name ∈ s.names e then s.names e else s.names e ++ [name] := by
  have hdoes := s.does_perform op
  generalize s.perform op = s' at hdoes ⊢
  cases hdoes with
  | scope enclosing => exact names_add s enclosing e
  | assign h => exact names_assign? h e
  | undefined => rfl
  | @define e' name v s' h =>
    rw [Operation.defines?]
    by_cases he : e' = e
    · subst he
      rw [names_define? h hop, if_pos rfl, Option.elim_some, if_neg (not_mem_of_define? h)]
    · rw [names_define?_of_ne h (Ne.symm he), if_neg he, Option.elim_none]
  | @defined e' name v h =>
    rw [Operation.defines?]
    by_cases he : e' = e
    · subst he
      rw [if_pos rfl, Option.elim_some, if_pos h]
    · rw [if_neg he, Option.elim_none]

theorem eraseDups_concat (names : List String) (name : String) :
    (names ++ [name]).eraseDups =
      if name ∈ names.eraseDups then names.eraseDups else names.eraseDups ++ [name] := by
  rw [List.eraseDups_append]
  by_cases h : name ∈ names
  · have hnone : [name].removeAll names = [] := by simp [List.removeAll, h]
    rw [hnone, if_pos (List.mem_eraseDups.mpr h)]
    exact List.append_nil _
  · have hnew : [name].removeAll names = [name] := by simp [List.removeAll, h]
    rw [hnew, if_neg (mt List.mem_eraseDups.mp h)]
    rfl

/-- The names of a scope are those that were to be defined there, each where it was so first. -/
theorem Built.names_eq {history : List Operation} (h : Built history s) (e : ScopeId) :
    s.names e = (history.filterMap (Operation.defines? e)).eraseDups := by
  induction h with
  | empty => rfl
  | @step history s _ op hop ih =>
    rw [names_perform hop, List.filterMap_append]
    cases hdefines : op.defines? e with
    | none => rw [Option.elim_none, List.filterMap_cons_none hdefines, List.filterMap_nil,
        List.append_nil, ih]
    | some name => rw [Option.elim_some, List.filterMap_cons_some hdefines, List.filterMap_nil,
        eraseDups_concat, ih]

theorem Built.nodup_names {history : List Operation} (h : Built history s) (e : ScopeId) :
    (s.names e).Nodup := by
  induction h with
  | empty => exact List.nodup_nil
  | @step history s _ op _ ih =>
    have hdoes := s.does_perform op
    generalize s.perform op = s' at hdoes ⊢
    cases hdoes with
    | scope enclosing => rwa [names_add]
    | define h => exact nodup_define? h ih
    | assign h => rwa [names_assign? h]
    | defined | undefined => exact ih

/-! ## 7. The laws -/

theorem define_eq_ok_iff {e : ScopeId} {name : Token} {v : Value} :
    s.define e name v = .ok s' ↔ s.define? e name.lexeme v = some s' := by
  rw [define_eq]
  cases s.define? e name.lexeme v <;> simp

theorem assign_eq_ok_iff {e : ScopeId} {name : Token} {v : Value} :
    s.assign e name v = .ok s' ↔ s.assign? e name.lexeme v = some s' := by
  rw [assign_eq]
  cases s.assign? e name.lexeme v <;> simp

theorem define_eq_error_iff (s : Store) (e : ScopeId) (name : Token) (v : Value)
    (error : RuntimeError) : s.define e name v = .error error ↔
      name.lexeme ∈ s.names e ∧ error = ⟨name, (Cause.alreadyDefined name.lexeme).message⟩ := by
  rw [define_eq, define?, ← binds_iff]
  by_cases h : s.binds name.lexeme e = true <;> simp [h, eq_comm]

theorem Linked.assign_eq_error_iff (hs : s.Linked) (e : ScopeId) (name : Token) (v : Value)
    (error : RuntimeError) : s.assign e name v = .error error ↔
      (¬∃ o, s.Nearest name.lexeme e o) ∧
        error = ⟨name, (Cause.undefined name.lexeme).message⟩ := by
  simp only [assign_eq, Store.assign?, ← hs.owner?_eq_some_iff]
  cases s.owner? e name.lexeme <;> simp [eq_comm]

/-- What is seen of a name after an assignment to it, from any scope. -/
theorem Linked.get_assign (hs : s.Linked) {e : ScopeId} {name : Token} {v : Value}
    (h : s.assign e name v = .ok s') (e' : ScopeId) (other : Token) :
    let reached := other.lexeme = name.lexeme ∧
      ∃ o, s.Nearest name.lexeme e o ∧ s.Nearest name.lexeme e' o
    (reached → s'.get e' other = .ok v) ∧ (¬reached → s'.get e' other = s.get e' other) := by
  intro reached
  rw [assign_eq_ok_iff] at h
  obtain ⟨o, ho, -⟩ := assign?_eq_some_iff.mp h
  have hreached : reached ↔ other.lexeme = name.lexeme ∧
      s.owner? e' name.lexeme = s.owner? e name.lexeme := by
    simp only [reached, ← hs.owner?_eq_some_iff, ho, Option.some_inj, exists_eq_left']
  rw [get_eq, get_eq, get?_assign? h, hreached]
  constructor
  · intro hboth
    rw [if_pos hboth]
    rfl
  · intro hnot
    rw [if_neg hnot]

/-- What is seen of a name after its definition, from any scope. -/
theorem Linked.get_define (hs : s.Linked) {e : ScopeId} {name : Token} {v : Value}
    (h : s.define e name v = .ok s') (e' : ScopeId) (other : Token) :
    let reached := other.lexeme = name.lexeme ∧ s'.Nearest name.lexeme e' e
    (reached → s'.get e' other = .ok v) ∧ (¬reached → s'.get e' other = s.get e' other) := by
  intro reached
  rw [define_eq_ok_iff] at h
  have hreached : reached ↔ other.lexeme = name.lexeme ∧ s'.owner? e' name.lexeme = some e := by
    simp only [reached, (hs.define? h).owner?_eq_some_iff]
  rw [get_eq, get_eq, get?_define? h, hreached]
  constructor
  · intro hboth
    rw [if_pos hboth]
    rfl
  · intro hnot
    rw [if_neg hnot]

/-- A definition or assignment that fails leaves the machine as it was. -/
theorem putStore_eq_error {m m' : Machine} {e : RuntimeError} {changed : Option Store} {stop : Stop}
    (h : Eval.putStore m e changed = .error stop m') : m' = m := by
  cases changed with
  | some store => cases h
  | none =>
    cases h
    rfl

/-- **The laws of the store.**  Whatever was done to it, successfully or not: each search comes to
an end, at an outermost scope; the names of a scope are distinct, and stand in the order in which
they were first to be defined there.  An assignment is seen from just those scopes to which the
nearest scope that binds the name is the one that was assigned to, a definition from just those to
which its own scope now is the nearest; all else is seen as before.  Only a name that its scope has
cannot be defined, only one that no scope on the chain has cannot be assigned to, and then nothing
changes. -/
theorem built_laws {history : List Operation} {s : Store} (h : Built history s) :
    (∀ e < s.size, s.IsChain e (s.chain e) ∧ s.depth e + 1 = (s.chain e).length) ∧
    (∀ e, (s.names e).Nodup ∧
      s.names e = (history.filterMap (Operation.defines? e)).eraseDups) ∧
    (∀ e name v s', s.assign e name v = .ok s' → ∀ e' other,
      let reached := other.lexeme = name.lexeme ∧
        ∃ o, s.Nearest name.lexeme e o ∧ s.Nearest name.lexeme e' o
      (reached → s'.get e' other = .ok v) ∧ (¬reached → s'.get e' other = s.get e' other)) ∧
    (∀ e name v s', s.define e name v = .ok s' → ∀ e' other,
      let reached := other.lexeme = name.lexeme ∧ s'.Nearest name.lexeme e' e
      (reached → s'.get e' other = .ok v) ∧ (¬reached → s'.get e' other = s.get e' other)) ∧
    (∀ e name v error, s.define e name v = .error error ↔ name.lexeme ∈ s.names e ∧
      error = ⟨name, (Cause.alreadyDefined name.lexeme).message⟩) ∧
    (∀ e name v error, s.assign e name v = .error error ↔ (¬∃ o, s.Nearest name.lexeme e o) ∧
      error = ⟨name, (Cause.undefined name.lexeme).message⟩) ∧
    ∀ (m m' : Machine) name v stop, Eval.define name v m = .error stop m' ∨
      Eval.assign name v m = .error stop m' → m' = m := by
  have hlinked := h.linked
  refine ⟨?_, fun e => ⟨h.nodup_names e, h.names_eq e⟩, fun _ _ _ _ => hlinked.get_assign,
    fun _ _ _ _ => hlinked.get_define, s.define_eq_error_iff, hlinked.assign_eq_error_iff, ?_⟩
  · intro e he
    have hchain := hlinked.isChain_chain he
    exact ⟨hchain, Nat.sub_add_cancel hchain.length_pos⟩
  · rintro m m' name v stop (herror | herror)
    · rw [Eval.define_run] at herror
      exact putStore_eq_error herror
    · rw [Eval.assign_run] at herror
      exact putStore_eq_error herror

/-- An inner scope that binds a name of the outer one, and refused to bind another name twice. -/
theorem built_laws_shadowed :
    let x : Token := .named "x"
    let y : Token := .named "y"
    let history : List Operation := [.scope none, .define 0 x .null, .scope (some 0),
      .define 1 y .null, .define 1 x .null, .define 1 y (.bool true), .assign 0 y .null]
    ∃ s, Built history s ∧ s.names 0 = ["x"] ∧ s.names 1 = ["y", "x"] ∧
      ∀ v s', s.assign 1 x v = .ok s' → s'.get 1 x = .ok v ∧ s'.get 0 x = s.get 0 x := by
  intro x y history
  obtain ⟨s, hbuilt⟩ : ∃ s, Built history s := by
    have hscopes := Built.empty.step (.scope none) (by decide)
      |>.step (.define 0 x .null) (by decide +kernel)
      |>.step (.scope (some 0)) (by decide +kernel)
    exact ⟨_, hscopes.step (.define 1 y .null) (by decide +kernel)
      |>.step (.define 1 x .null) (by decide +kernel)
      |>.step (.define 1 y (.bool true)) (by decide +kernel)
      |>.step (.assign 0 y .null) (by decide +kernel)⟩
  obtain ⟨-, hnames, hassign, -⟩ := built_laws hbuilt
  have hnames₀ : s.names 0 = ["x"] := (hnames 0).2.trans (by decide +kernel)
  have hnames₁ : s.names 1 = ["y", "x"] := (hnames 1).2.trans (by decide +kernel)
  have hx₀ : x.lexeme ∈ s.names 0 := hnames₀ ▸ by decide +kernel
  have hx₁ : x.lexeme ∈ s.names 1 := hnames₁ ▸ by decide +kernel
  refine ⟨s, hbuilt, hnames₀, hnames₁, fun v s' hs' => ⟨?_, ?_⟩⟩
  · exact (hassign 1 x v s' hs' 1 x).1 ⟨rfl, 1, .here hx₁, .here hx₁⟩
  · refine (hassign 1 x v s' hs' 0 x).2 ?_
    rintro ⟨-, o, hinner, houter⟩
    cases ((nearest_here hx₁).mp hinner).trans ((nearest_here hx₀).mp houter).symm

end Store

end Script
