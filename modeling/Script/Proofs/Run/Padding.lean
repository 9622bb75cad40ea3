/-
# An empty scope is not seen

A run in a new scope that binds no name there might as well have been in the scope around: what is
looked up in the empty scope is found in the one around, and once it is gone nothing is left of it.

Two runs are compared, one from a machine `k`, the other from a machine with one scope more, the
PAD.  It has a number that in `k` is that of the next scope, so scopes that come later have other
numbers in the two runs; and those within the scope around the pad lie within the pad instead
(`Store.Padded`).  The runs go abreast, or else the pad has got a name (`Transparent`).  Names do
not go away, so if in the end the pad has none, it never had.

Main result: `Eval.inBlock_quiet`.
-/
import Script.Proofs.Run.Names

namespace Script

/-! ## 1. Stores with a pad -/

namespace ScopeId

/-- The number of a scope once another was put in as number `p`. -/
def past (p e : Nat) : Nat := if e < p then e else e + 1

theorem past_of_lt {p e : Nat} (h : e < p) : past p e = e := if_pos h

theorem past_of_le {p e : Nat} (h : p ≤ e) : past p e = e + 1 := if_neg (Nat.not_lt.mpr h)

theorem past_injective {p e e' : Nat} (h : past p e = past p e') : e = e' := by
  unfold past at h
  split at h <;> split at h <;> omega

theorem past_ne (p e : Nat) : past p e ≠ p := by
  unfold past
  split <;> omega

/-- A scope goes by its new number; the one around the pad may be seen through the pad as well. -/
inductive Link (p outer : Nat) : Nat → Nat → Prop where
  | past (e : Nat) : Link p outer e (past p e)
  | pad : Link p outer outer p

theorem Link.lt_of_lt {p outer e e' n : Nat} (h : Link p outer e e') (hp : p ≤ n) (he : e < n) :
    e' < n + 1 := by
  cases h with
  | past =>
    unfold ScopeId.past
    split <;> omega
  | pad => omega

/-- Below the pad, numbers are what they were. -/
theorem Link.eq_of_lt {p outer e e' : Nat} (h : Link p outer e e') (he : e' < p) : e' = e := by
  cases h with
  | past =>
    unfold ScopeId.past at he ⊢
    split at he
    · rw [if_pos ‹_›]
    · omega
  | pad => omega

end ScopeId

open ScopeId (past Link past_of_lt past_of_le past_injective past_ne)

/-- The same bindings, in a scope that lies where it should with the pad. -/
structure Scope.Padded (p outer : Nat) (scope scope' : Scope) : Prop where
  bindings : scope'.bindings = scope.bindings
  enclosing : Option.Rel (Link p outer) scope.enclosing scope'.enclosing

/-- Below the pad, a scope lies where it lay. -/
theorem Scope.Padded.eq_of_lt {p outer : Nat} {scope scope' : Scope}
    (h : scope.Padded p outer scope') (hlt : ∀ o, scope'.enclosing = some o → o < p) :
    scope' = scope := by
  obtain ⟨enclosing, bindings⟩ := scope
  obtain ⟨enclosing', bindings'⟩ := scope'
  obtain ⟨hbindings, henclosing⟩ := h
  cases hbindings
  cases henclosing with
  | none => rfl
  | some hlink => rw [hlink.eq_of_lt (hlt _ rfl)]

theorem Scope.Padded.of_lt {p : Nat} (outer : Nat) {scope : Scope}
    (hlt : ∀ o, scope.enclosing = some o → o < p) : scope.Padded p outer scope := by
  refine ⟨rfl, ?_⟩
  cases henclosing : scope.enclosing with
  | none => exact .none
  | some o =>
    have hlink : Link p outer o (past p o) := .past o
    rw [past_of_lt (hlt o henclosing)] at hlink
    exact .some hlink

/-- `s` is `k` with an empty scope put in as number `p`, within the scope `outer`. -/
structure Store.Padded (p outer : Nat) (k s : Store) : Prop where
  outer_lt : outer < p
  le_size : p ≤ k.size
  size : s.size = k.size + 1
  linked : k.Linked
  linked' : s.Linked
  pad : s.scopes[p]? = some ⟨some outer, []⟩
  scopes : ∀ e, Option.Rel (Scope.Padded p outer) k.scopes[e]? s.scopes[past p e]?

namespace Store

/-- A search starts in the scope itself, and goes on in the one around. -/
theorem Linked.owner?_step {s : Store} (h : s.Linked) {e : ScopeId} {scope : Scope}
    (hscope : s.scopes[e]? = some scope) (name : String) :
    s.owner? e name =
      if name ∈ s.names e then some e else scope.enclosing.bind (s.owner? · name) := by
  apply Option.ext
  intro o
  rw [h.owner?_eq_some_iff]
  by_cases hname : name ∈ s.names e
  · rw [if_pos hname, nearest_here hname, Option.some_inj]
  · rw [if_neg hname, nearest_outer hname hscope, Option.bind_eq_some_iff]
    simp only [h.owner?_eq_some_iff]

theorem getElem?_add_eq (s : Store) (enclosing : Option ScopeId) (e : ScopeId) :
    (s.add enclosing).scopes[e]? = if e = s.size then some ⟨enclosing, []⟩ else s.scopes[e]? :=
  Array.getElem?_push

theorem size_add (s : Store) (enclosing : Option ScopeId) : (s.add enclosing).size = s.size + 1 :=
  Array.size_push _

theorem getElem?_keep_of_le (s : Store) {n e : Nat} (h : n ≤ e) : (s.keep n).scopes[e]? = none := by
  refine Array.getElem?_eq_none ?_
  rw [keep, Array.size_shrink]
  exact Nat.le_trans (Nat.min_le_left _ _) h

theorem Linked.keep {s : Store} (h : s.Linked) (n : Nat) : (s.keep n).Linked := by
  intro e scope outer hscope houter
  by_cases he : e < n
  · rw [getElem?_keep s he] at hscope
    exact h e scope outer hscope houter
  · rw [getElem?_keep_of_le s (Nat.not_lt.mp he)] at hscope
    cases hscope

theorem size_change (s : Store) (e : ScopeId) (f : Scope → Scope) : (s.change e f).size = s.size :=
  Array.size_modify

theorem owner?_of_none {s : Store} {e : ScopeId} (h : s.scopes[e]? = none) (name : String) :
    s.owner? e name = none := by
  rw [owner?, chain, chainFrom, h]
  rfl

variable {p outer : Nat} {k s : Store} (h : k.Padded p outer s)

include h

theorem Padded.split (e : Nat) : (k.scopes[e]? = none ∧ s.scopes[past p e]? = none) ∨
    ∃ scope scope', k.scopes[e]? = some scope ∧ s.scopes[past p e]? = some scope' ∧
      scope.Padded p outer scope' := by
  have he := h.scopes e
  generalize k.scopes[e]? = found at he ⊢
  generalize s.scopes[past p e]? = found' at he ⊢
  cases he with
  | none => exact .inl ⟨rfl, rfl⟩
  | some hscope => exact .inr ⟨_, _, rfl, rfl, hscope⟩

theorem Padded.bindings (e : Nat) : s.bindings (past p e) = k.bindings e := by
  unfold Store.bindings
  rcases h.split e with ⟨hk, hs⟩ | ⟨scope, scope', hk, hs, hscope⟩
  · rw [hk, hs]
  · rw [hk, hs]
    exact hscope.bindings

theorem Padded.names (e : Nat) : s.names (past p e) = k.names e :=
  congrArg (List.map _) (h.bindings e)

theorem Padded.names_pad : s.names p = [] := names_of_getElem? h.pad

/-- A name is found in the same scope in both stores. -/
theorem Padded.owner? (name : String) : ∀ {e e' : Nat}, Link p outer e e' →
    s.owner? e' name = (k.owner? e name).map (past p) := by
  intro e e'
  induction e' using Nat.strongRecOn generalizing e with
  | ind e' ih =>
    intro hlink
    cases hlink with
    | pad =>
      -- the pad binds nothing, so the search goes on around it
      have hout := ih outer h.outer_lt (past_of_lt h.outer_lt ▸ Link.past outer)
      rw [h.linked'.owner?_step h.pad, h.names_pad, if_neg List.not_mem_nil, Option.bind_some, hout]
    | past =>
      rcases h.split e with ⟨hk, hs⟩ | ⟨scope, scope', hk, hs, hscope⟩
      · rw [owner?_of_none hk, owner?_of_none hs, Option.map_none]
      rw [h.linked.owner?_step hk, h.linked'.owner?_step hs, h.names]
      split
      · rfl
      have hlt : ∀ o, scope'.enclosing = some o → o < past p e := fun o => h.linked' _ scope' o hs
      have henclosing := hscope.enclosing
      generalize scope.enclosing = o at henclosing ⊢
      generalize scope'.enclosing = o' at henclosing hlt ⊢
      cases henclosing with
      | none => rfl
      | some ho => exact ih _ (hlt _ rfl) ho

theorem Padded.get? {e e' : Nat} (hlink : Link p outer e e') (name : String) :
    s.get? e' name = k.get? e name := by
  have howner := h.owner? name hlink
  cases ho : k.owner? e name with
  | none =>
    rw [ho, Option.map_none] at howner
    rw [get?_of_not_owner? howner, get?_of_not_owner? ho]
  | some o =>
    rw [ho, Option.map_some] at howner
    rw [get?_of_owner? howner, get?_of_owner? ho]
    rcases h.split o with ⟨hk, hs⟩ | ⟨scope, scope', hk, hs, hscope⟩
    · rw [hk, hs]
    · rw [hk, hs, Option.bind_some, Option.bind_some, Scope.find?, hscope.bindings]
      rfl

/-- The same change of what one scope binds, in both stores. -/
theorem Padded.change (e : Nat) {f : Scope → Scope}
    (hf : ∀ scope : Scope, (f scope).enclosing = scope.enclosing)
    (hbindings : ∀ scope scope' : Scope, scope'.bindings = scope.bindings →
      (f scope').bindings = (f scope).bindings) :
    (k.change e f).Padded p outer (s.change (past p e) f) where
  outer_lt := h.outer_lt
  le_size := (size_change k e f).symm ▸ h.le_size
  size := by rw [size_change, size_change, h.size]
  linked := h.linked.change hf e
  linked' := h.linked'.change hf (past p e)
  pad := by rw [getElem?_change, if_neg (past_ne p e), h.pad]
  scopes e' := by
    rw [getElem?_change, getElem?_change]
    by_cases he : e = e'
    · subst he
      rw [if_pos rfl, if_pos rfl]
      rcases h.split e with ⟨hk, hs⟩ | ⟨scope, scope', hk, hs, hscope⟩
      · rw [hk, hs]
        exact .none
      · rw [hk, hs]
        refine .some ⟨hbindings _ _ hscope.bindings, ?_⟩
        rw [hf, hf]
        exact hscope.enclosing
    · rw [if_neg he, if_neg fun heq => he (past_injective heq)]
      exact h.scopes e'

theorem Padded.assign? {e e' : Nat} (hlink : Link p outer e e') (name : String) (v : Value) :
    Option.Rel (Padded p outer) (k.assign? e name v) (s.assign? e' name v) := by
  rw [Store.assign?, Store.assign?, h.owner? name hlink]
  cases k.owner? e name with
  | none => exact .none
  | some o =>
    refine .some (h.change o (fun _ => rfl) fun scope scope' hsame => ?_)
    simp only [Scope.set, hsame]

theorem Padded.define? (e : Nat) (name : String) (v : Value) :
    Option.Rel (Padded p outer) (k.define? e name v) (s.define? (past p e) name v) := by
  have hbinds : s.binds name (past p e) = k.binds name e := binds_of_names (h.names e)
  rw [Store.define?, Store.define?, hbinds]
  split
  · exact .none
  · refine .some (h.change e (fun _ => rfl) fun scope scope' hsame => ?_)
    simp only [Scope.bind, hsame]

/-- A name that is defined in the pad stays there. -/
theorem Padded.define?_pad (name : String) (v : Value) :
    ∃ s', s.define? p name v = some s' ∧ s'.names p ≠ [] := by
  have hbinds : s.binds name p = false := by
    rw [Bool.eq_false_iff, ne_eq, binds_iff, h.names_pad]
    exact List.not_mem_nil
  have hdefine : s.define? p name v = some _ := define?_eq_some_iff.mpr ⟨hbinds, rfl⟩
  have hp : p < s.size := by
    rw [h.size]
    exact Nat.lt_succ_of_le h.le_size
  refine ⟨_, hdefine, ?_⟩
  rw [names_define? hdefine hp]
  exact List.append_ne_nil_of_right_ne_nil _ (List.cons_ne_nil _ _)

theorem Padded.past_size : past p k.size = s.size := by
  rw [past_of_le h.le_size, h.size]

/-- A new scope in `s` has the number that the one in `k` goes by. -/
theorem Padded.add {e e' : Nat} (hlink : Link p outer e e') (he : e < k.size) :
    (k.add (some e)).Padded p outer (s.add (some e')) where
  outer_lt := h.outer_lt
  le_size := by
    rw [size_add]
    exact Nat.le_succ_of_le h.le_size
  size := by rw [size_add, size_add, h.size]
  linked := h.linked.add fun o ho => by
    cases ho
    exact he
  linked' := h.linked'.add fun o ho => by
    cases ho
    rw [h.size]
    exact hlink.lt_of_lt h.le_size he
  pad := by
    rw [getElem?_add_eq, if_neg, h.pad]
    rw [← h.past_size]
    exact (past_ne p k.size).symm
  scopes o := by
    rw [getElem?_add_eq, getElem?_add_eq, ← h.past_size]
    by_cases ho : o = k.size
    · rw [if_pos ho, if_pos (congrArg _ ho)]
      exact .some ⟨rfl, .some hlink⟩
    · rw [if_neg ho, if_neg fun heq => ho (past_injective heq)]
      exact h.scopes o

theorem Padded.keep {n : Nat} (hp : p ≤ n) (hn : n ≤ k.size) :
    (k.keep n).Padded p outer (s.keep (n + 1)) where
  outer_lt := h.outer_lt
  le_size := (size_keep hn).symm ▸ hp
  size := by
    rw [size_keep hn, size_keep]
    rw [h.size]
    exact Nat.succ_le_succ hn
  linked := h.linked.keep n
  linked' := h.linked'.keep (n + 1)
  pad := by rw [getElem?_keep s (Nat.lt_succ_of_le hp), h.pad]
  scopes e := by
    rcases Nat.lt_or_ge e n with he | he
    · have hpast : past p e < n + 1 := (Link.past e : Link p outer e _).lt_of_lt hp he
      rw [getElem?_keep k he, getElem?_keep s hpast]
      exact h.scopes e
    · have hpast : n + 1 ≤ past p e := by
        rw [past_of_le (Nat.le_trans hp he)]
        exact Nat.succ_le_succ he
      rw [getElem?_keep_of_le k he, getElem?_keep_of_le s hpast]
      exact .none

/-- If the pad is the last scope, `k` is what is left without it. -/
theorem Padded.keep_eq (hsize : k.size = p) : s.keep p = k := by
  have hscopes : (s.keep p).scopes = k.scopes := by
    apply Array.ext_getElem?
    intro e
    rcases Nat.lt_or_ge e p with he | he
    · rw [getElem?_keep s he]
      have hsplit := h.split e
      rw [past_of_lt he] at hsplit
      rcases hsplit with ⟨hk, hs⟩ | ⟨scope, scope', hk, hs, hscope⟩
      · rw [hk, hs]
      · have hlt : ∀ o, scope'.enclosing = some o → o < p := fun o ho =>
          Nat.lt_trans (h.linked' e scope' o hs ho) he
        rw [hk, hs, hscope.eq_of_lt hlt]
    · rw [getElem?_keep_of_le s he, Array.getElem?_eq_none (Nat.le_trans (Nat.le_of_eq hsize) he)]
  exact congrArg Store.mk hscopes

end Store

/-! ## 2. Runs abreast -/

/-- `m` is `k` with a pad, and the scope that is active may be seen through it. -/
structure Machine.Padded (p outer : Nat) (k m : Machine) : Prop where
  store : k.store.Padded p outer m.store
  active : Link p outer k.active m.active
  inside : k.active < k.store.size
  fresh : m.fresh = k.fresh
  readings : m.readings = k.readings
  log : m.log = k.log

namespace Machine

variable {p outer : Nat} {k m k' m' : Machine}

theorem Padded.enter (h : k.Padded p outer m) {e e' : ScopeId} (hlink : Link p outer e e')
    (he : e < k.store.size) : (k.enter e).Padded p outer (m.enter e') where
  store := h.store.add hlink he
  active := by
    show Link p outer k.store.size m.store.size
    rw [← h.store.past_size]
    exact .past k.store.size
  inside := by
    show k.store.size < (k.store.add (some e)).size
    rw [Store.size_add]
    exact Nat.lt_succ_self _
  fresh := h.fresh
  readings := h.readings
  log := h.log

theorem Padded.leave (h : k.Padded p outer m) (h' : k'.Padded p outer m')
    (hsize : k.store.size ≤ k'.store.size) :
    (k'.leave k.active k.store.size).Padded p outer (m'.leave m.active m.store.size) where
  store := by
    rw [Machine.leave, Machine.leave, h.store.size]
    exact h'.store.keep h.store.le_size hsize
  active := h.active
  inside := (Store.size_keep hsize).symm ▸ h.inside
  fresh := h'.fresh
  readings := h'.readings
  log := h'.log

theorem Padded.lt_size (h : k.Padded p outer m) : p < m.store.size := by
  rw [h.store.size]
  exact Nat.lt_succ_of_le h.store.le_size

/-- Without the pad, if that is the last scope, the machine is `k` again. -/
theorem Padded.leave_eq (h : k'.Padded k.store.size outer m') (hstays : k.Stays k') :
    m'.leave k.active k.store.size = k' := by
  have hstore := h.store.keep_eq hstays.store.size
  rw [Machine.leave, hstore, h.fresh, h.readings, h.log, ← hstays.active]

/-- The active scope is there, and each scope lies within one of a smaller number. -/
structure Rooted (m : Machine) : Prop where
  linked : m.store.Linked
  active : m.active < m.store.size

theorem Rooted.stays (h : m.Rooted) (hm : m.Stays m') : m'.Rooted where
  linked := h.linked.congr hm.store.enclosing
  active := by
    rw [hm.active, hm.store.size]
    exact h.active

theorem Rooted.enter (h : m.Rooted) : (m.enter m.active).Rooted where
  linked := h.linked.add fun o ho => by
    cases ho
    exact h.active
  active := by
    show m.store.size < (m.store.add (some m.active)).size
    rw [Store.size_add]
    exact Nat.lt_succ_self _

/-- A machine that has just entered a scope within the active one. -/
theorem padded_enter (hk : k.Rooted) : k.Padded k.store.size k.active (k.enter k.active) where
  store :=
    { outer_lt := hk.active
      le_size := Nat.le_refl _
      size := Store.size_add ..
      linked := hk.linked
      linked' := hk.enter.linked
      pad := (Store.getElem?_add_eq ..).trans (if_pos rfl)
      scopes := fun e => by
        rw [Machine.enter, Store.getElem?_add_eq, if_neg (past_ne _ e)]
        rcases Nat.lt_or_ge e k.store.size with he | he
        · have hscope : k.store.scopes[e]? = some k.store.scopes[e] := Array.getElem?_eq_getElem he
          rw [past_of_lt he, hscope]
          exact .some (.of_lt _ fun o ho => Nat.lt_trans (hk.linked e _ o hscope ho) he)
        · rw [past_of_le he, Array.getElem?_eq_none he,
            Array.getElem?_eq_none (Nat.le_succ_of_le he)]
          exact .none }
  active := .pad
  inside := hk.active
  fresh := rfl
  readings := rfl
  log := rfl

end Machine

namespace Eval

variable {α β : Type}

/-- Two runs ended alike, and a result is as `Q` asks. -/
inductive Abreast (p outer : Nat) (Q : α → Prop) :
    EStateM.Result Stop Machine α → EStateM.Result Stop Machine α → Prop where
  | ok {a : α} {k m : Machine} : Q a → k.Padded p outer m → Abreast p outer Q (.ok a k) (.ok a m)
  | error {stop : Stop} {k m : Machine} : k.Padded p outer m →
    Abreast p outer Q (.error stop k) (.error stop m)

/-- After the run the pad has a name. -/
def Spoiled (p : ScopeId) : EStateM.Result Stop Machine α → Prop
  | .ok _ m => m.store.names p ≠ []
  | .error _ m => m.store.names p ≠ []

/-- No scope goes away.  With a pad the run goes as it would without, or the pad gets a name. -/
def Transparent (Q : α → Prop) (x : Eval α) : Prop :=
  staying.Runs Q x ∧ ∀ p outer k m, k.Padded p outer m →
    Abreast p outer Q (x k) (x m) ∨ Spoiled p (x m)

variable {Q : α → Prop} {Q' : β → Prop}

/-- Names do not go away. -/
theorem Spoiled.ended {m : Machine} {p : ScopeId} (hp : p < m.store.size)
    (hnames : m.store.names p ≠ []) {r : EStateM.Result Stop Machine α}
    (h : staying.Ended m Q r) : Spoiled p r := by
  have hstays : ∀ m', m.Stays m' → m'.store.names p ≠ [] := by
    intro m' hm hnil
    have hscope : m.store.scopes[p]? = some m.store.scopes[p] := Array.getElem?_eq_getElem hp
    obtain ⟨scope', hscope', hgrows⟩ := hm.store.scopes p _ hscope
    rw [Store.names_of_getElem? hscope] at hnames
    rw [Store.names_of_getElem? hscope'] at hnil
    exact hnames (List.prefix_nil.mp (hnil ▸ hgrows.names))
  cases r with
  | ok a m' => exact hstays m' h.1
  | error stop m' => exact hstays m' h

theorem Transparent.pure {a : α} (h : Q a) : Transparent Q (Pure.pure a) :=
  ⟨Frame.runs_pure h, fun _ _ _ _ hkm => .inl (.ok h hkm)⟩

theorem transparent_throw (stop : Stop) : Transparent Q (throw stop) :=
  ⟨Frame.runs_throw stop, fun _ _ _ _ hkm => .inl (.error hkm)⟩

theorem Transparent.bind {x : Eval α} {f : α → Eval β} (hx : Transparent Q x)
    (hf : ∀ a, Q a → Transparent Q' (f a)) : Transparent Q' (x >>= f) := by
  refine ⟨hx.1.bind fun a ha => (hf a ha).1, fun p outer k m hkm => ?_⟩
  have hended := hx.1 m
  have hboth := hx.2 p outer k m hkm
  rw [bind_run, bind_run]
  generalize x k = r at hboth ⊢
  generalize x m = r' at hboth hended ⊢
  rcases hboth with habreast | hspoiled
  · cases habreast with
    | ok ha hkm' => exact (hf _ ha).2 p outer _ _ hkm'
    | error hkm' => exact .inl (.error hkm')
  · cases r' with
    | ok a m' =>
      have hp : p < m'.store.size := hended.1.store.size ▸ hkm.lt_size
      exact .inr (.ended hp hspoiled ((hf a hended.2).1 m'))
    | error stop m' => exact .inr hspoiled

/-- A step that leaves the store as it is, and takes no notice of it. -/
theorem transparent_outside {x : Eval α} (h : ∀ (fresh readings : Nat) (log : List Event),
    ∃ a fresh' readings' log', Q a ∧ ∀ store active, x ⟨store, active, fresh, readings, log⟩ =
      .ok a ⟨store, active, fresh', readings', log'⟩) : Transparent Q x := by
  constructor
  · intro m
    obtain ⟨a, fresh, readings, log, ha, hx⟩ := h m.fresh m.readings m.log
    rw [hx]
    exact ⟨m.stays_outside fresh readings log, ha⟩
  · rintro p outer k ⟨store, active, _, _, _⟩ ⟨hstore, hactive, hinside, rfl, rfl, rfl⟩
    obtain ⟨a, fresh, readings, log, ha, hx⟩ := h k.fresh k.readings k.log
    rw [hx store active]
    have hk := hx k.store k.active
    rw [hk]
    exact .inl (.ok ha ⟨hstore, hactive, hinside, rfl, rfl, rfl⟩)

theorem transparent_trace (s : Setup) (level : Nat) (line : String) :
    Transparent (fun _ => True) (trace s level line) := by
  refine transparent_outside fun fresh readings log => ?_
  unfold trace
  split
  · exact ⟨(), fresh, readings, .traced line :: log, trivial, fun _ _ => rfl⟩
  · exact ⟨(), fresh, readings, log, trivial, fun _ _ => rfl⟩

theorem transparent_lookup (name : Token) :
    Transparent (fun v => Value.Alike .single fun _ => v) (lookup name) := by
  refine ⟨(Frame.runs_lookup name).mono fun v _ => .single v, fun p outer k m hkm => .inl ?_⟩
  rw [lookup_run, lookup_run, hkm.store.get? hkm.active]
  cases k.store.get? k.active name.lexeme with
  | some v => exact .ok (.single v) hkm
  | none => exact .error hkm

theorem Abreast.putStore {p outer : Nat} {k m : Machine} (hkm : k.Padded p outer m)
    {changed changed' : Option Store} (h : Option.Rel (Store.Padded p outer) changed changed')
    (hinside : ∀ store ∈ changed, k.active < store.size) (e : RuntimeError) :
    Abreast p outer (fun _ => True) (putStore k e changed) (putStore m e changed') := by
  cases h with
  | none => exact .error hkm
  | some hstore =>
    exact .ok trivial ⟨hstore, hkm.active, hinside _ rfl, hkm.fresh, hkm.readings, hkm.log⟩

theorem transparent_assign (name : Token) (v : Value) :
    Transparent (fun _ => True) (assign name v) := by
  refine ⟨Frame.runs_assign name v, fun p outer k m hkm => .inl ?_⟩
  rw [assign_run, assign_run]
  refine .putStore hkm (hkm.store.assign? hkm.active name.lexeme v) (fun store hstore => ?_) _
  rw [(Store.grows_assign? hstore).size]
  exact hkm.inside

/-- A definition in the pad gives it a name, and one elsewhere is seen in both runs. -/
theorem transparent_define (name : Token) (v : Value) :
    Transparent (fun _ => True) (define name v) := by
  refine ⟨staying.runs_define name v, ?_⟩
  rintro p outer k ⟨store, active, fresh, readings, log⟩ hkm
  rw [define_run, define_run]
  have hactive : Link p outer k.active active := hkm.active
  generalize hk : k.active = e at hactive
  cases hactive with
  | pad =>
    obtain ⟨store', hdefine, hnames⟩ := hkm.store.define?_pad name.lexeme v
    right
    show Spoiled p (putStore _ _ (store.define? p name.lexeme v))
    rw [hdefine]
    exact hnames
  | past =>
    left
    refine .putStore hkm (hkm.store.define? e name.lexeme v) (fun store hstore => ?_) _
    rw [(Store.grows_define? hstore).size]
    exact hkm.inside

theorem Transparent.inScope {x : Eval α} (hx : Transparent Q x) {p outer : Nat} {k m : Machine}
    (hkm : k.Padded p outer m) {e e' : ScopeId} (hlink : Link p outer e e')
    (he : e < k.store.size) :
    Abreast p outer Q (inScope e x k) (inScope e' x m) ∨ Spoiled p (inScope e' x m) := by
  have hboth := hx.2 p outer _ _ (hkm.enter hlink he)
  have hended := hx.1 (k.enter e)
  unfold Eval.inScope
  generalize x (k.enter e) = r at hboth hended ⊢
  generalize x (m.enter e') = r' at hboth ⊢
  have hgrown : ∀ k', (k.enter e).Stays k' → k.store.size ≤ k'.store.size := by
    intro k' hstays
    rw [hstays.store.size]
    exact Nat.le_of_lt (Nat.lt_of_lt_of_eq (Nat.lt_succ_self _) (Store.size_add ..).symm)
  rcases hboth with habreast | hspoiled
  · left
    cases habreast with
    | ok ha hkm' => exact .ok ha (hkm.leave hkm' (hgrown _ hended.1))
    | error hkm' => exact .error (hkm.leave hkm' (hgrown _ hended))
  · right
    have hleft : ∀ m' : Machine, m'.store.names p ≠ [] →
        (m'.leave m.active m.store.size).store.names p ≠ [] := by
      intro m' hnames
      rwa [Machine.leave, Store.names_keep, if_pos hkm.lt_size]
    cases r' with
    | ok a m' => exact hleft m' hspoiled
    | error stop m' => exact hleft m' hspoiled

theorem Transparent.inCall {x : Eval α} (hx : Transparent Q x) :
    Transparent Q (Eval.inScope globals x) := by
  refine ⟨staying.closes.inScope hx.1 globals, fun p outer k m hkm => ?_⟩
  have hpos : globals < p := Nat.zero_lt_of_lt hkm.store.outer_lt
  have hlink : Link p outer globals (past p globals) := .past globals
  rw [past_of_lt hpos] at hlink
  exact hx.inScope hkm hlink (Nat.lt_of_lt_of_le hpos hkm.store.le_size)

/-- Where blocks are not traced, a block only opens a scope. -/
theorem inBlock_eq {s : Setup} (hs : s.level < 3) (x : Eval α) (m : Machine) :
    inBlock s x m = Eval.inScope m.active x m := by
  rw [inBlock, get_bind_run, trace, if_neg (Nat.not_le.mpr hs)]
  rfl

theorem Transparent.inBlock {s : Setup} (hs : s.level < 3) {x : Eval α} (hx : Transparent Q x) :
    Transparent Q (Eval.inBlock s x) := by
  refine ⟨staying.closes.inBlock hx.1 s, fun p outer k m hkm => ?_⟩
  rw [inBlock_eq hs, inBlock_eq hs]
  exact hx.inScope hkm hkm.active hkm.inside

/-- That an empty scope is not seen is kept from step to step, where blocks are not traced. -/
def padding {s : Setup} (hs : s.level < 3) : LogicalRelation .single fun _ => s where
  Holds Q x := Transparent (fun a => Q fun _ => a) (x ())
  pure hQ := .pure hQ
  bind hx hf := hx.bind fun a ha => hf (fun _ => a) ha
  outOfSteps := transparent_throw .outOfSteps
  fault f := transparent_throw (.fault f)
  raise _ _ := transparent_throw _
  trace level := transparent_trace s (level + 1)
  print line := transparent_outside fun fresh readings log =>
    ⟨(), fresh, readings, .printed line :: log, trivial, fun _ _ => rfl⟩
  define _ _ := transparent_define _ _
  lookup _ := transparent_lookup _
  assign _ _ := transparent_assign _ _
  identity := transparent_outside fun fresh readings log =>
    ⟨fresh, fresh + 1, readings, log, ⟨fresh, rfl⟩, fun _ _ => rfl⟩
  readClock := transparent_outside fun fresh readings log =>
    ⟨.num (s.clock readings), fresh, readings + 1, log, .single _, fun _ _ => rfl⟩
  inCall hx := hx.inCall
  inBlock hx := hx.inBlock hs

/-! ## 3. Quiet blocks -/

/-- A run that binds no name may have a new scope or not. -/
theorem inScope_quiet {x : Eval α} (hx : Transparent (fun _ => True) x)
    (hquiet : naming.Runs (fun _ => True) x) {k : Machine} (hk : k.Rooted) :
    Eval.inScope k.active x k = x k := by
  have hboth := hx.2 _ _ _ _ (Machine.padded_enter hk)
  have hended := hx.1 k
  have hnames := hquiet (k.enter k.active)
  unfold Eval.inScope
  generalize x (k.enter k.active) = r' at hboth hnames ⊢
  generalize x k = r at hboth hended ⊢
  have hempty : (k.enter k.active).store.names k.store.size = [] := by
    rw [Machine.enter, Store.names_add]
    exact Store.names_of_size_le (Nat.le_refl _)
  rcases hboth with habreast | hspoiled
  · cases habreast with
    | ok _ hkm => exact congrArg (EStateM.Result.ok _) (hkm.leave_eq hended.1)
    | error hkm => exact congrArg (EStateM.Result.error _) (hkm.leave_eq hended)
  · cases r' with
    | ok a m' => exact absurd ((hnames.1.2 k.store.size).trans hempty) hspoiled
    | error stop m' => exact absurd ((hnames.2 k.store.size).trans hempty) hspoiled

/-- Where blocks are not traced, statements that bind no name may stand in a block or not. -/
theorem inBlock_quiet {s : Setup} (hs : s.level < 3) {fuel room : Nat} {statements : List Tree}
    (hquiet : naming.Runs (fun _ => True) (executeAll s fuel room statements)) {m : Machine}
    (hm : m.Rooted) :
    Eval.inBlock s (executeAll s fuel room statements) m = executeAll s fuel room statements m := by
  have htransparent : Transparent (fun _ => True) (executeAll s fuel room statements) :=
    ((padding hs).covers fuel).executeAll room (Tree.Alike.allSingle statements)
  rw [inBlock_eq hs]
  exact inScope_quiet htransparent hquiet hm

end Eval

end Script
