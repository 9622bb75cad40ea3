/-
# Calls are isolated from their caller

A function that is called sees the globals and its own scopes, and nothing of its caller: what the
call does is settled by the globals alone, and of the scopes that were there before it changes none
but the globals (`Eval.call_isolated`).

The run of a body is compared with the same run on a smaller store, from which all scopes of the
caller are gone.  The scopes that the run adds then have smaller numbers, but they lie within one
another in the same way (`Store.Within`), so every name is found in the same place.  Both runs keep
step, as a relation on families of one.  Calls themselves do not look at the active scope
(`Eval.Unaware`), so it makes no difference which one the caller has.
-/
import Script.Proofs.Run.Restoration

namespace Script

/-! ## 1. Stores with more scopes -/

/-- The number of a scope once `n` others were put in after the globals. -/
def ScopeId.shift (n e : Nat) : Nat := if e = 0 then 0 else e + n

namespace ScopeId

theorem shift_of_pos {n e : Nat} (h : 0 < e) : shift n e = e + n := if_neg (Nat.ne_of_gt h)

theorem shift_lt {n e e' : Nat} (h : e < e') : shift n e < shift n e' := by
  rw [shift_of_pos (Nat.zero_lt_of_lt h)]
  unfold shift
  split
  · omega
  · omega

theorem shift_injective (n : Nat) {e e' : Nat} (h : shift n e = shift n e') : e = e' := by
  rcases Nat.lt_trichotomy e e' with hlt | heq | hgt
  · have := shift_lt (n := n) hlt
    omega
  · exact heq
  · have := shift_lt (n := n) hgt
    omega

/-- No number is shifted to one of the scopes that were put in. -/
theorem shift_ne {n e i : Nat} (h : i < n) : shift n e ≠ i + 1 := by
  unfold shift
  split
  · omega
  · omega

end ScopeId

/-- The scope where it lies once `n` others were put in. -/
def Scope.shift (n : Nat) (s : Scope) : Scope := { s with enclosing := s.enclosing.map (.shift n) }

/-- `s` holds the scopes of `k` and, after the globals, those of `old`.  In `k` each scope lies
within one of a smaller number. -/
structure Store.Within (old : List Scope) (k s : Store) : Prop where
  size : s.size = k.size + old.length
  pos : 0 < k.size
  new : ∀ e : Nat, s.scopes[ScopeId.shift old.length e]? = (k.scopes[e]?).map (·.shift old.length)
  old : ∀ i < old.length, s.scopes[i + 1]? = old[i]?
  links : ∀ (e : Nat) (scope : Scope) (outer : Nat), k.scopes[e]? = some scope →
    scope.enclosing = some outer → outer < e

namespace Store

open ScopeId (shift shift_lt shift_injective shift_ne shift_of_pos)

variable {old : List Scope} {k s : Store}

/-- With links to smaller numbers, any two bounds beyond a scope's number give all of its chain. -/
theorem Within.chainFrom (h : k.Within old s) : ∀ (a b e : Nat), e < a →
    shift old.length e < b →
    s.chainFrom b (shift old.length e) = (k.chainFrom a e).map (shift old.length)
  | 0, _, _, ha, _ => absurd ha (Nat.not_lt_zero _)
  | _, 0, _, _, hb => absurd hb (Nat.not_lt_zero _)
  | a + 1, b + 1, e, ha, hb => by
    rw [Store.chainFrom, Store.chainFrom, h.new e]
    cases hscope : k.scopes[e]? with
    | none => rfl
    | some scope =>
      rw [Option.map_some]
      dsimp only [Scope.shift]
      cases houter : scope.enclosing with
      | none => rfl
      | some outer =>
        have hlt : outer < e := h.links e scope outer hscope houter
        have hlt' := shift_lt (n := old.length) hlt
        have ih := h.chainFrom a b outer (Nat.lt_of_lt_of_le hlt (Nat.le_of_lt_succ ha))
          (Nat.lt_of_lt_of_le hlt' (Nat.le_of_lt_succ hb))
        simp only [Option.map_some, List.map_cons, ih]

theorem Within.chain (h : k.Within old s) (e : Nat) :
    s.chain (shift old.length e) = (k.chain e).map (shift old.length) :=
  h.chainFrom (e + 1) _ e (Nat.lt_succ_self e) (Nat.lt_succ_self _)

theorem Within.depth (h : k.Within old s) (e : Nat) :
    s.depth (shift old.length e) = k.depth e := by
  rw [Store.depth, Store.depth, h.chain, List.length_map]

theorem Within.binds (h : k.Within old s) (name : String) (e : Nat) :
    s.binds name (shift old.length e) = k.binds name e := by
  rw [Store.binds, Store.binds, h.new]
  cases k.scopes[e]? <;> rfl

theorem Within.owner? (h : k.Within old s) (e : Nat) (name : String) :
    s.owner? (shift old.length e) name = (k.owner? e name).map (shift old.length) := by
  have hbinds : s.binds name ∘ shift old.length = k.binds name := funext (h.binds name)
  rw [Store.owner?, Store.owner?, h.chain, List.find?_map, hbinds]

theorem Within.get? (h : k.Within old s) (e : Nat) (name : String) :
    s.get? (shift old.length e) name = k.get? e name := by
  rw [Store.get?, Store.get?, h.owner?]
  cases k.owner? e name with
  | none => rfl
  | some owner =>
    show (s.scopes[shift old.length owner]?).bind _ = (k.scopes[owner]?).bind _
    rw [h.new]
    cases k.scopes[owner]? <;> rfl

/-- The same change of one scope in both stores. -/
theorem Within.modify (h : k.Within old s) (e : Nat) {f : Scope → Scope}
    (hf : ∀ scope : Scope, (f scope).enclosing = scope.enclosing)
    (hshift : ∀ n (scope : Scope), f (scope.shift n) = (f scope).shift n) :
    Within old ⟨k.scopes.modify e f⟩ ⟨s.scopes.modify (shift old.length e) f⟩ := by
  refine ⟨?_, ?_, fun e' => ?_, fun i hi => ?_, fun e' scope outer hscope houter => ?_⟩
  · simpa [Store.size] using h.size
  · simpa [Store.size] using h.pos
  · simp only [Array.getElem?_modify, h.new]
    by_cases he : e = e'
    · rw [if_pos he, if_pos (congrArg _ he), Option.map_map, Option.map_map]
      exact congrArg (Option.map · _) (funext (hshift old.length))
    · rw [if_neg he, if_neg fun heq => he (shift_injective _ heq)]
  · simp only [Array.getElem?_modify]
    rw [if_neg (shift_ne hi), h.old i hi]
  · simp only [Array.getElem?_modify] at hscope
    split at hscope
    · obtain ⟨before, hbefore, rfl⟩ := Option.map_eq_some_iff.mp hscope
      rw [hf] at houter
      exact h.links e' before outer hbefore houter
    · exact h.links e' scope outer hscope houter

/-- Both stores refuse a change, or both make it. -/
inductive Changed (old : List Scope) : Option Store → Option Store → Prop where
  | refused : Changed old none none
  | made {k s : Store} : k.Within old s → Changed old (some k) (some s)

theorem Within.define? (h : k.Within old s) (e : Nat) (name : String) (v : Value) :
    Changed old (k.define? e name v) (s.define? (shift old.length e) name v) := by
  rw [Store.define?, Store.define?, h.binds]
  split
  · exact .refused
  · exact .made (h.modify e (fun _ => rfl) fun _ _ => rfl)

theorem Within.assign? (h : k.Within old s) (e : Nat) (name : String) (v : Value) :
    Changed old (k.assign? e name v) (s.assign? (shift old.length e) name v) := by
  rw [Store.assign?, Store.assign?, h.owner?]
  cases k.owner? e name with
  | none => exact .refused
  | some owner => exact .made (h.modify owner (fun _ => rfl) fun _ _ => rfl)

/-- The next scope has the number that the smaller store would shift it to. -/
theorem Within.size_eq (h : k.Within old s) : s.size = shift old.length k.size := by
  rw [shift_of_pos h.pos, h.size]

theorem Within.add (h : k.Within old s) {outer : Nat} (houter : outer < k.size) :
    Within old (k.add (some outer)) (s.add (some (shift old.length outer))) := by
  refine ⟨?_, ?_, fun e => ?_, fun i hi => ?_, fun e scope outer' hscope houter' => ?_⟩
  · have := h.size
    simp only [Store.size, Store.add, Array.size_push] at this ⊢
    omega
  · simp [Store.size, Store.add]
  · have hsize : s.scopes.size = shift old.length k.scopes.size := h.size_eq
    simp only [Store.add, Array.getElem?_push, h.new]
    by_cases he : e = k.scopes.size
    · rw [if_pos he, if_pos (by rw [he, hsize])]
      rfl
    · rw [if_neg he, if_neg fun heq => he (shift_injective _ (heq.trans hsize))]
  · have hlt : i + 1 < s.size := by
      rw [h.size]
      have := h.pos
      omega
    rw [getElem?_add s _ hlt, h.old i hi]
  · simp only [Store.add, Array.getElem?_push] at hscope
    split at hscope
    · cases hscope
      cases houter'
      rename_i he
      exact he ▸ houter
    · exact h.links e scope outer' hscope houter'

/-- Scopes that both stores forget. -/
theorem Within.keep (h : k.Within old s) {n : Nat} (hn : 0 < n) (hsize : n ≤ k.size) :
    Within old (k.keep n) (s.keep (shift old.length n)) := by
  have hs := h.size
  have hshift : shift old.length n = n + old.length := shift_of_pos hn
  refine ⟨?_, ?_, fun e => ?_, fun i hi => ?_, fun e scope outer hscope houter => ?_⟩
  · rw [size_keep hsize, size_keep (by omega), hshift]
  · rw [size_keep hsize]
    exact hn
  · by_cases he : e < n
    · rw [getElem?_keep s (shift_lt he), getElem?_keep k he, h.new]
    · have hge : n ≤ e := by omega
      have hge' : shift old.length n ≤ shift old.length e := by
        rcases Nat.lt_or_eq_of_le hge with hlt | rfl
        · exact Nat.le_of_lt (shift_lt hlt)
        · exact Nat.le_refl _
      rw [Array.getElem?_eq_none (by simp [Store.keep]; omega),
        Array.getElem?_eq_none (by simp [Store.keep]; omega)]
      rfl
  · rw [getElem?_keep s (by omega), h.old i hi]
  · by_cases he : e < n
    · rw [getElem?_keep k he] at hscope
      exact h.links e scope outer hscope houter
    · rw [Array.getElem?_eq_none (by simp [Store.keep]; omega)] at hscope
      cases hscope

end Store

/-! ## 2. Runs that keep step -/

/-- What a caller has besides the globals: its scopes, and what has happened. -/
structure Caller where
  scopes : List Scope
  log : List Event

/-- `m` is `k` with what a caller has. -/
structure Machine.Within (c : Caller) (k m : Machine) : Prop where
  store : k.store.Within c.scopes m.store
  active : m.active = ScopeId.shift c.scopes.length k.active
  inside : k.active < k.store.size
  fresh : m.fresh = k.fresh
  readings : m.readings = k.readings
  log : m.log = k.log ++ c.log

namespace Machine

variable {c : Caller} {k m k' m' : Machine}

theorem Within.enter (h : k.Within c m) {outer : Nat} (houter : outer < k.store.size) :
    (k.enter outer).Within c (m.enter (ScopeId.shift c.scopes.length outer)) where
  store := h.store.add houter
  active := h.store.size_eq
  inside := by simp [Machine.enter, Store.add, Store.size]
  fresh := h.fresh
  readings := h.readings
  log := h.log

theorem Within.leave (h : k.Within c m) (h' : k'.Within c m') (hsize : k.store.size ≤ k'.store.size) :
    (k'.leave k.active k.store.size).Within c (m'.leave m.active m.store.size) where
  store := by
    rw [Machine.leave, Machine.leave, h.store.size_eq]
    exact h'.store.keep h.store.pos hsize
  active := h.active
  inside := (Store.size_keep hsize).symm ▸ h.inside
  fresh := h'.fresh
  readings := h'.readings
  log := h'.log

end Machine

namespace Eval

variable {α β : Type} {c : Caller}

/-- Two runs, the first one from `k`, ended alike, and a result is as `Q` asks. -/
inductive InStep (c : Caller) (k : Machine) (Q : α → Prop) :
    EStateM.Result Stop Machine α → EStateM.Result Stop Machine α → Prop where
  | ok {a : α} {k' m' : Machine} : Q a → k.Stays k' → k'.Within c m' →
    InStep c k Q (.ok a k') (.ok a m')
  | error {stop : Stop} {k' m' : Machine} : k.Stays k' → k'.Within c m' →
    InStep c k Q (.error stop k') (.error stop m')

theorem InStep.stays {Q : α → Prop} {k₀ k : Machine} {r r' : EStateM.Result Stop Machine α}
    (h : InStep c k Q r r') (hstays : k₀.Stays k) : InStep c k₀ Q r r' := by
  cases h with
  | ok ha hstays' hkm => exact .ok ha (hstays.trans hstays') hkm
  | error hstays' hkm => exact .error (hstays.trans hstays') hkm

/-- A run does not see what a caller has. -/
def Isolated (c : Caller) (Q : α → Prop) (x : Eval α) : Prop :=
  ∀ k m, k.Within c m → InStep c k Q (x k) (x m)

theorem Isolated.pure {Q : α → Prop} {a : α} (h : Q a) : Isolated c Q (pure a) :=
  fun k _ hkm => .ok h (.refl k) hkm

theorem Isolated.throw {Q : α → Prop} (stop : Stop) : Isolated c Q (throw stop : Eval α) :=
  fun k _ hkm => .error (.refl k) hkm

theorem Isolated.bind {Q : α → Prop} {Q' : β → Prop} {x : Eval α} {f : α → Eval β}
    (hx : Isolated c Q x) (hf : ∀ a, Q a → Isolated c Q' (f a)) : Isolated c Q' (x >>= f) := by
  intro k m hkm
  rw [bind_run, bind_run]
  have h := hx k m hkm
  generalize x k = r at h ⊢
  generalize x m = r' at h ⊢
  cases h with
  | ok ha hstays hkm' => exact (hf _ ha _ _ hkm').stays hstays
  | error hstays hkm' => exact .error hstays hkm'

theorem isolated_trace (s : Setup) (level : Nat) (line : String) :
    Isolated c (fun _ => True) (trace s level line) := by
  intro k m hkm
  unfold trace
  split
  · exact .ok trivial ⟨rfl, .refl _⟩
      { hkm with log := congrArg (Event.traced line :: ·) hkm.log }
  · exact .ok trivial (.refl k) hkm

theorem isolated_print (line : String) : Isolated c (fun _ => True) (print line) :=
  fun _ _ hkm => .ok trivial ⟨rfl, .refl _⟩
    { hkm with log := congrArg (Event.printed line :: ·) hkm.log }

theorem isolated_identity : Isolated c (fun _ => True) identity := by
  intro k m hkm
  show InStep c k _ (.ok k.fresh { k with fresh := k.fresh + 1 })
    (.ok m.fresh { m with fresh := m.fresh + 1 })
  rw [hkm.fresh]
  exact .ok trivial ⟨rfl, .refl _⟩ { hkm with fresh := rfl }

theorem isolated_readClock (s : Setup) : Isolated c (fun _ => True) (readClock s) := by
  intro k m hkm
  show InStep c k _ (.ok (Value.num (s.clock k.readings)) { k with readings := k.readings + 1 })
    (.ok (Value.num (s.clock m.readings)) { m with readings := m.readings + 1 })
  rw [hkm.readings]
  exact .ok trivial ⟨rfl, .refl _⟩ { hkm with readings := rfl }

theorem isolated_lookup (name : Token) : Isolated c (fun _ => True) (lookup name) := by
  intro k m hkm
  rw [lookup_run, lookup_run, hkm.active, hkm.store.get?]
  cases k.store.get? k.active name.lexeme with
  | some v => exact .ok trivial (.refl k) hkm
  | none => exact .error (.refl k) hkm

theorem InStep.putStore {k m : Machine} (hkm : k.Within c m) {changed changed' : Option Store}
    (h : Store.Changed c.scopes changed changed')
    (hgrows : ∀ store, changed = some store → k.store.Grows store) (e : RuntimeError) :
    InStep c k (fun _ => True) (putStore k e changed) (putStore m e changed') := by
  cases h with
  | refused => exact .error (.refl k) hkm
  | made h =>
    have hgrows := hgrows _ rfl
    exact .ok trivial ⟨rfl, hgrows⟩ { hkm with store := h, inside := hgrows.size.symm ▸ hkm.inside }

theorem isolated_define (name : Token) (v : Value) :
    Isolated c (fun _ => True) (define name v) := by
  intro k m hkm
  rw [define_run, define_run, hkm.active]
  exact .putStore hkm (hkm.store.define? ..) (fun _ => Store.grows_define?) _

theorem isolated_assign (name : Token) (v : Value) :
    Isolated c (fun _ => True) (assign name v) := by
  intro k m hkm
  rw [assign_run, assign_run, hkm.active]
  exact .putStore hkm (hkm.store.assign? ..) (fun _ => Store.grows_assign?) _

theorem Isolated.mono {Q Q' : α → Prop} {x : Eval α} (hx : Isolated c Q x) (h : ∀ a, Q a → Q' a) :
    Isolated c Q' x := by
  intro k m hkm
  have h' := hx k m hkm
  generalize x k = r at h' ⊢
  generalize x m = r' at h' ⊢
  cases h' with
  | ok ha hstays hkm' => exact .ok (h _ ha) hstays hkm'
  | error hstays hkm' => exact .error hstays hkm'

/-- What runs in a new scope sees that scope, and is told by no number where it lies. -/
theorem Isolated.inScope {Q : α → Prop} {x : Eval α} (hx : Isolated c Q x) {k m : Machine}
    (hkm : k.Within c m) {outer : Nat} (houter : outer < k.store.size) :
    InStep c k Q (inScope outer x k) (inScope (ScopeId.shift c.scopes.length outer) x m) := by
  have h := hx _ _ (hkm.enter houter)
  unfold Eval.inScope
  generalize x (k.enter outer) = r at h ⊢
  generalize x (m.enter _) = r' at h ⊢
  have hle : ∀ {k' : Machine}, (k.enter outer).Stays k' → k.store.size ≤ k'.store.size := by
    intro k' hstays
    rw [hstays.store.size]
    simp [Machine.enter, Store.add, Store.size]
  cases h with
  | ok ha hstays hkm' => exact .ok ha hstays.leave (hkm.leave hkm' (hle hstays))
  | error hstays hkm' => exact .error hstays.leave (hkm.leave hkm' (hle hstays))

theorem Isolated.inCall {Q : α → Prop} {x : Eval α} (hx : Isolated c Q x) :
    Isolated c Q (Eval.inScope globals x) :=
  fun _ _ hkm => hx.inScope hkm hkm.store.pos

theorem Isolated.inBlock {Q : α → Prop} {x : Eval α} (hx : Isolated c Q x) (s : Setup) :
    Isolated c Q (inBlock s x) := by
  intro k m hkm
  rw [Eval.inBlock, get_bind, get_bind, hkm.active, hkm.store.depth]
  generalize "enter block at depth " ++ Decimal.ofInt _ = line
  have h := isolated_trace s 3 line k m hkm
  rw [bind_run, bind_run]
  generalize trace s 3 line k = r at h ⊢
  generalize trace s 3 line m = r' at h ⊢
  cases h with
  | ok _ hstays hkm' =>
    exact (hx.inScope hkm' (hstays.store.size.symm ▸ hkm.inside)).stays hstays
  | error hstays hkm' => exact .error hstays hkm'

/-- Not seeing what a caller has, as a relation on families of one. -/
def isolation (c : Caller) (s : Setup) : LogicalRelation .single fun _ => s where
  Holds Q x := Isolated c (fun a => Q fun _ => a) (x ())
  pure hQ := .pure hQ
  bind hx hf := hx.bind fun a ha => hf (fun _ => a) ha
  outOfSteps := .throw _
  fault _ := .throw _
  raise _ _ := .throw _
  trace level := isolated_trace s (level + 1)
  print := isolated_print
  define _ _ := isolated_define _ _
  lookup _ := (isolated_lookup _).mono fun v _ => .single v
  assign _ _ := isolated_assign _ _
  identity := isolated_identity.mono fun n _ => ⟨n, rfl⟩
  readClock := (isolated_readClock s).mono fun v _ => .single v
  inCall hx := hx.inCall
  inBlock hx := hx.inBlock s

theorem isolated_call (c : Caller) (s : Setup) (fuel room : Nat) (f : Value) (args : List Value)
    (paren : Tree) : Isolated c (fun _ => True) (call s fuel room f args paren) := by
  have hcall : Isolated c _ (call s fuel room f args paren) :=
    ((isolation c s).covers fuel).call room (.single f) (.same fun v _ => .single v) (.single paren)
  exact hcall.mono fun _ _ => trivial

/-! ## 3. Calls do not look at the active scope -/

/-- The same result, with another scope active. -/
def reactivate (e : ScopeId) : EStateM.Result Stop Machine α → EStateM.Result Stop Machine α
  | .ok a m => .ok a { m with active := e }
  | .error stop m => .error stop { m with active := e }

/-- Which scope is active makes no difference to a run, and it stays active. -/
def Unaware (x : Eval α) : Prop :=
  ∀ (m : Machine) (e : ScopeId), x { m with active := e } = reactivate e (x m)

theorem Unaware.bind {x : Eval α} {f : α → Eval β} (hx : Unaware x) (hf : ∀ a, Unaware (f a)) :
    Unaware (x >>= f) := by
  intro m e
  rw [bind_run, bind_run, hx m e]
  cases x m with
  | ok a m' => exact hf a m' e
  | error stop m' => rfl

theorem unaware_pure (a : α) : Unaware (pure a) := fun _ _ => rfl

theorem unaware_raise (t : Token) (c : Cause) : Unaware (raise t c : Eval α) := fun _ _ => rfl

theorem unaware_fault (f : Fault) : Unaware (fault f : Eval α) := fun _ _ => rfl

theorem unaware_token (t : Tree) : Unaware (token t) := by
  unfold token
  split
  · exact unaware_pure _
  · exact unaware_fault _

theorem unaware_items (t : Tree) : Unaware (items t) := by
  unfold items
  split
  · exact unaware_pure _
  · exact unaware_fault _

theorem unaware_trace (s : Setup) (level : Nat) (line : String) : Unaware (trace s level line) := by
  intro m e
  unfold trace
  split <;> rfl

/-- The new scope lies within the globals, wherever the run comes from. -/
theorem unaware_inScope (body : Eval α) : Unaware (inScope globals body) := by
  intro m e
  show leave e m.store.size (body (m.enter globals)) =
    reactivate e (leave m.active m.store.size (body (m.enter globals)))
  cases body (m.enter globals) <;> rfl

theorem unaware_call (s : Setup) (fuel room identity : Nat) (name : Token) (params body : Tree)
    (args : List Value) (paren : Tree) :
    Unaware (call s fuel room (.function identity name params body) args paren) := by
  cases fuel with
  | zero =>
    rw [call_zero]
    exact fun _ _ => rfl
  | succ fuel =>
    rw [call_succ]
    refine ((unaware_items params).bind fun ps => unaware_pure _).bind fun expected => ?_
    have hraise : ∀ cause, Unaware (do raise (← token paren) cause : Eval Value) :=
      fun cause => (unaware_token paren).bind fun t => unaware_raise t cause
    split
    · exact hraise _
    · refine (unaware_trace s 3 _).bind fun _ => ?_
      cases room with
      | zero => exact hraise .stackOverflow
      | succ room => exact (unaware_inScope _).bind fun _ => unaware_pure Value.null

/-! ## 4. The main result -/

/-- What a run comes to, apart from the machine. -/
def outcome (x : Eval α) (m : Machine) : Except Stop α :=
  match x m with
  | .ok a _ => .ok a
  | .error stop _ => .error stop

end Eval

namespace Machine

variable {m m' k' : Machine} {bindings : List (String × Value)}

/-- The machine without all that a caller has. -/
def bare (m : Machine) (bindings : List (String × Value)) : Machine where
  store := ⟨#[⟨none, bindings⟩]⟩
  active := globals
  fresh := m.fresh
  readings := m.readings
  log := []

/-- What a machine has besides the globals. -/
def caller (m : Machine) : Caller := ⟨m.store.scopes.toList.tail, m.log⟩

theorem bare_within (h : m.store.scopes[globals]? = some ⟨none, bindings⟩) :
    (m.bare bindings).Within m.caller { m with active := globals } where
  store := by
    have hlt : 0 < m.store.scopes.size := (Array.getElem?_eq_some_iff.mp h).1
    have hlength : m.store.scopes.toList.tail.length = m.store.scopes.size - 1 := by simp
    refine ⟨?_, Nat.one_pos, fun e => ?_, fun i _ => ?_, fun e scope outer hscope houter => ?_⟩
    · show m.store.scopes.size = 1 + m.store.scopes.toList.tail.length
      omega
    · cases e with
      | zero => exact h
      | succ e =>
        rw [ScopeId.shift_of_pos (Nat.succ_pos e)]
        refine (Array.getElem?_eq_none ?_).trans (by rfl)
        show m.store.scopes.size ≤ e + 1 + m.store.scopes.toList.tail.length
        omega
    · show m.store.scopes[i + 1]? = m.store.scopes.toList.tail[i]?
      rw [List.getElem?_tail, Array.getElem?_toList]
    · cases e with
      | zero =>
        cases hscope
        cases houter
      | succ e => cases hscope
  active := rfl
  inside := Nat.one_pos
  fresh := rfl
  readings := rfl
  log := rfl

theorem Within.bindings_globals {c : Caller} (h : k'.Within c m') :
    m'.store.bindings globals = k'.store.bindings globals := by
  have hnew : m'.store.scopes[globals]? = _ := h.store.new 0
  have hzero : k'.store.scopes[globals]? = k'.store.scopes[0]? := rfl
  rw [Store.bindings, Store.bindings, hnew, hzero]
  cases k'.store.scopes[0]? <;> rfl

/-- Without scopes of its own left, a call leaves those of the caller as they were. -/
theorem Within.getElem?_eq (h : k'.Within m.caller m') (hsize : k'.store.size = 1) {e : Nat}
    (he : e ≠ globals) : m'.store.scopes[e]? = m.store.scopes[e]? := by
  have hs : m'.store.scopes.size = 1 + m.store.scopes.toList.tail.length :=
    h.store.size.trans (by rw [hsize]; rfl)
  have hlength : m.store.scopes.toList.tail.length = m.store.scopes.size - 1 := by simp
  obtain ⟨i, rfl⟩ : ∃ i, e = i + 1 := Nat.exists_eq_succ_of_ne_zero he
  by_cases hi : i < m.store.scopes.toList.tail.length
  · rw [h.store.old i hi]
    show m.store.scopes.toList.tail[i]? = _
    rw [List.getElem?_tail, Array.getElem?_toList]
  · rw [Array.getElem?_eq_none (by omega), Array.getElem?_eq_none (by omega)]

end Machine

namespace Eval

variable {α β : Type}

/-- What two runs from machines with the same globals do, told by the run on the bare machine. -/
theorem Unaware.of_bare {x : Eval α} (hx : Unaware x) (hcall : ∀ c, Isolated c (fun _ => True) x)
    {m : Machine} {bindings : List (String × Value)}
    (h : m.store.scopes[globals]? = some ⟨none, bindings⟩) :
    x.outcome m = x.outcome (m.bare bindings) ∧
      (x.after m).log = (x.after (m.bare bindings)).log ++ m.log ∧
      (x.after m).store.bindings globals = (x.after (m.bare bindings)).store.bindings globals ∧
      ∀ e : Nat, e ≠ globals → (x.after m).store.scopes[e]? = m.store.scopes[e]? := by
  have hstep := hcall m.caller _ _ (Machine.bare_within h)
  have hactive : x m = reactivate m.active (x { m with active := globals }) :=
    hx { m with active := globals } m.active
  unfold outcome after
  rw [hactive]
  generalize x (m.bare bindings) = r at hstep ⊢
  generalize x { m with active := globals } = r' at hstep ⊢
  cases hstep with
  | ok _ hstays hkm =>
    exact ⟨rfl, hkm.log, hkm.bindings_globals, fun e he => hkm.getElem?_eq hstays.store.size he⟩
  | error hstays hkm =>
    exact ⟨rfl, hkm.log, hkm.bindings_globals, fun e he => hkm.getElem?_eq hstays.store.size he⟩

/-- Every result that a run may have is as `Q` asks. -/
def Yields (Q : α → Prop) (x : Eval α) : Prop := ∀ m a, x.outcome m = .ok a → Q a

theorem Yields.bind {Q : β → Prop} (x : Eval α) {f : α → Eval β} (hf : ∀ a, Yields Q (f a)) :
    Yields Q (x >>= f) := by
  intro m b hb
  unfold outcome at hb
  rw [bind_run] at hb
  cases hx : x m with
  | ok a m' =>
    rw [hx] at hb
    exact hf a m' b hb
  | error stop m' =>
    rw [hx] at hb
    cases hb

/-- A function that comes to its end gives null. -/
theorem call_yields (s : Setup) (fuel room identity : Nat) (name : Token) (params body : Tree)
    (args : List Value) (paren : Tree) :
    Yields (· = .null) (call s fuel room (.function identity name params body) args paren) := by
  have hraise : ∀ cause, Yields (· = Value.null) (do raise (← token paren) cause : Eval Value) :=
    fun cause => .bind _ fun t => by rintro m a ⟨⟩
  cases fuel with
  | zero =>
    rw [call_zero]
    rintro m a ⟨⟩
  | succ fuel =>
    rw [call_succ]
    refine .bind _ fun expected => ?_
    split
    · exact hraise _
    · refine .bind _ fun _ => ?_
      cases room with
      | zero => exact hraise .stackOverflow
      | succ room =>
        refine .bind _ fun _ => ?_
        rintro m a ⟨⟩
        rfl

/-- **Calls are isolated from their caller.**  Two machines with the same globals may differ in all
their other scopes and in the one that is active: a function called on both comes to the same, null
or a stop, logs the same events and leaves the same globals.  On neither does it change any other
scope. -/
theorem call_isolated (s : Setup) (fuel room identity : Nat) (name : Token) (params body : Tree)
    (args : List Value) (paren : Tree) {m₁ m₂ : Machine} {bindings : List (String × Value)}
    (h₁ : m₁.store.scopes[globals]? = some ⟨none, bindings⟩)
    (h₂ : m₂.store.scopes[globals]? = some ⟨none, bindings⟩) (hfresh : m₁.fresh = m₂.fresh)
    (hreadings : m₁.readings = m₂.readings) :
    let x := call s fuel room (.function identity name params body) args paren
    x.outcome m₁ = x.outcome m₂ ∧
    (x.outcome m₁ = .ok .null ∨ ∃ stop, x.outcome m₁ = .error stop) ∧
    (∃ events, (x.after m₁).log = events ++ m₁.log ∧ (x.after m₂).log = events ++ m₂.log) ∧
    (x.after m₁).store.bindings globals = (x.after m₂).store.bindings globals ∧
    ∀ m ∈ [m₁, m₂], (x.after m).active = m.active ∧ (x.after m).store.size = m.store.size ∧
      ∀ e, e ≠ globals → (x.after m).store.scopes[e]? = m.store.scopes[e]? := by
  intro x
  have hx : Unaware x := unaware_call s fuel room identity name params body args paren
  have hcall : ∀ c, Isolated c (fun _ => True) x := fun c => isolated_call c s fuel room _ args paren
  have hbare : m₁.bare bindings = m₂.bare bindings := by
    unfold Machine.bare
    rw [hfresh, hreadings]
  obtain ⟨houtcome₁, hlog₁, hbindings₁, hscopes₁⟩ := hx.of_bare hcall h₁
  obtain ⟨houtcome₂, hlog₂, hbindings₂, hscopes₂⟩ := hx.of_bare hcall h₂
  rw [hbare] at houtcome₁ hlog₁ hbindings₁
  refine ⟨houtcome₁.trans houtcome₂.symm, ?_, ⟨_, hlog₁, hlog₂⟩, hbindings₁.trans hbindings₂.symm,
    fun m hm => ?_⟩
  · cases h : x.outcome m₁ with
    | ok v => exact .inl (congrArg _ (call_yields _ _ _ _ _ _ _ _ _ m₁ v h))
    | error stop => exact .inr ⟨stop, rfl⟩
  · have hstays := call_stays s fuel room m (.function identity name params body) args paren
    refine ⟨hstays.active, hstays.store.size, ?_⟩
    simp only [List.mem_cons, List.not_mem_nil, or_false] at hm
    rcases hm with rfl | rfl
    · exact hscopes₁
    · exact hscopes₂

/-- A function that prints `x` does not see which `x` its caller has, if any. -/
theorem call_isolated_local_name :
    let m : Machine := { Machine.initial with
      store := ⟨#[⟨none, []⟩, ⟨some globals, [("x", .str "one")]⟩, ⟨some globals, []⟩]⟩ }
    let body : Tree := .seq [.print (.variable (.token (.named "x")))]
    let x := call ⟨0, fun _ => 0⟩ 9 9 (.function 1 (.named "f") (.seq []) body) [] .null
    x.outcome { m with active := 1 } = x.outcome { m with active := 2 } := by
  intro m body x
  have h₁ : { m with active := 1 }.store.scopes[globals]? = some ⟨none, []⟩ := rfl
  have h₂ : { m with active := 2 }.store.scopes[globals]? = some ⟨none, []⟩ := rfl
  exact (call_isolated _ _ _ _ _ _ _ _ _ h₁ h₂ rfl rfl).1

end Eval

end Script
