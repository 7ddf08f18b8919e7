import Turf.Dispatch.Model

/-!
# What the main thread does, statement by statement

`View` is the dispatcher as the main thread knows it: on which side of a round it is,
which threads it keeps, and how often each thread has run the action of the call, or will
have when it has caught up. `View.effect` is a statement on views, defined where the
statement is allowed, and `Leads` runs a list of them. No worker occurs here, so what a
call comes to is computed by following its body.
-/
namespace Turf.Dispatch

/-- Between rounds workers gather at the start gate, within a round at the end gate. -/
inductive Side where
  | between
  | within
  deriving DecidableEq

def Side.gate : Side → Gate
  | between => .startGate
  | within => .endGate

/-- A thread stays, has been told to exit, or has been joined. -/
inductive Role where
  | stays
  | leaves
  | left
  deriving DecidableEq

/-- `gathered` says that every worker was found spinning at the gate of this side. -/
structure View where
  side : Side
  gathered : Bool
  roles : List Role
  threadFilter : Int
  action : Action
  param : Param
  runs : Kind → Nat → Nat

namespace View

/-- The test a worker makes of the filter. -/
def Picks (v : View) (i : Nat) : Prop := v.threadFilter < 0 ∨ v.threadFilter = i

instance (v : View) (i : Nat) : Decidable (v.Picks i) :=
  inferInstanceAs (Decidable (v.threadFilter < 0 ∨ v.threadFilter = i))

/-- What is installed is `noAction` over `NULL` or all of the call's own. -/
def Installed (call : Nat) (v : View) : Prop :=
  (v.action = .noAction ∧ v.param = .null) ∨ (v.action = .thunk call ∧ v.param = .closure call)

instance (call : Nat) (v : View) : Decidable (v.Installed call) :=
  inferInstanceAs (Decidable ((v.action = .noAction ∧ v.param = .null) ∨
    (v.action = .thunk call ∧ v.param = .closure call)))

/-- How often worker `i` runs the call's action in the round that starts here. -/
def due (call : Nat) (v : View) (i : Nat) : Nat :=
  if 0 < i ∧ v.roles[i]? = some .stays ∧ v.action = .thunk call ∧ v.Picks i then 1 else 0

/-- How often the main thread runs the call's action when it calls what is installed. -/
def own (call : Nat) (v : View) (i : Nat) : Nat :=
  if i = 0 ∧ v.action = .thunk call then 1 else 0

/-- The counts with more events of one kind. -/
def plus (v : View) (kind : Kind) (more : Nat → Nat) (kind' : Kind) (i : Nat) : Nat :=
  v.runs kind' i + if kind' = kind then more i else 0

def effect (call : Nat) (v : View) : Stmt → Option View
  | .await gate count =>
    if gate = v.side.gate ∧ count + 1 = v.roles.length ∧
        (v.side = .within → ∀ r ∈ v.roles, r = .stays) then
      some { v with gathered := true }
    else none
  | .release gate =>
    if gate = v.side.gate ∧ v.gathered = true ∧ v.Installed call ∧
        (v.side = .within → ∀ r ∈ v.roles, r = .stays) then
      match v.side with
      | .between =>
        some { v with
          side := .within
          gathered := false
          runs := fun kind i => v.runs kind i + v.due call i }
      | .within => some { v with side := .between, gathered := false }
    else none
  | .setThreadFilter filter =>
    if v.side = .between then some { v with threadFilter := filter } else none
  | .setAction action => if v.side = .between then some { v with action } else none
  | .setParam param => if v.side = .between then some { v with param } else none
  | .setMustExit t =>
    if v.side = .between ∧ 0 < t ∧ v.roles[t]? = some .stays then
      some { v with roles := v.roles.set t .leaves }
    else none
  | .join t =>
    if v.side = .within ∧ v.gathered = false ∧ 0 < t ∧ v.roles[t]? = some .leaves then
      some { v with roles := v.roles.set t .left }
    else none
  | .resize numThreads =>
    if v.side = .within ∧ 0 < numThreads ∧ ∀ r ∈ v.roles.drop numThreads, r = .left then
      some { v with roles := v.roles.take numThreads }
    else none
  | .spawn =>
    if v.side = .between ∧ v.gathered = false then
      some { v with roles := v.roles ++ [.stays] }
    else none
  | .beginAction =>
    if v.Installed call then some { v with runs := v.plus .began (v.own call) } else none
  | .endAction =>
    if v.Installed call then some { v with runs := v.plus .ended (v.own call) } else none
  | .setNumSpawnedThreads _ | .growFor _ | .kick _ => none

end View

/-- From `v` the statements are all allowed and end at `u`. -/
inductive Leads (call : Nat) : List Stmt → View → View → Prop
  | done (v : View) : Leads call [] v v
  | effect {stmt : Stmt} {rest : List Stmt} {v v' u : View} (h : v.effect call stmt = some v')
      (hrest : Leads call rest v' u) : Leads call (stmt :: rest) v u
  | setNumSpawnedThreads {numThreads : Nat} {rest : List Stmt} {v u : View}
      (h : Leads call (Dispatch.setNumSpawnedThreads v.roles.length numThreads ++ rest) v u) :
      Leads call (.setNumSpawnedThreads numThreads :: rest) v u
  | grows {threadIndex : Nat} {rest : List Stmt} {v u : View} (ht : threadIndex ≥ v.roles.length)
      (h : Leads call (.setNumSpawnedThreads (threadIndex + 1) :: rest) v u) :
      Leads call (.growFor threadIndex :: rest) v u
  | fits {threadIndex : Nat} {rest : List Stmt} {v u : View}
      (ht : ¬threadIndex ≥ v.roles.length) (h : Leads call rest v u) :
      Leads call (.growFor threadIndex :: rest) v u
  | kick {gate : Gate} {rest : List Stmt} {v u : View}
      (h : Leads call (kickGate gate (v.roles.length - 1) ++ rest) v u) :
      Leads call (.kick gate :: rest) v u

theorem Leads.append {call : Nat} {xs ys : List Stmt} {v u t : View} (h : Leads call xs v u)
    (h' : Leads call ys u t) : Leads call (xs ++ ys) v t := by
  induction h with
  | done v => exact h'
  | effect heff _ ih => exact .effect heff (ih h')
  | setNumSpawnedThreads _ ih =>
    refine .setNumSpawnedThreads ?_
    have hrest := ih h'
    rwa [List.append_assoc] at hrest
  | grows ht _ ih => exact .grows ht (ih h')
  | fits ht _ ih => exact .fits ht (ih h')
  | kick _ ih =>
    refine .kick ?_
    have hrest := ih h'
    rwa [List.append_assoc] at hrest

/-- Statements add executions and take none back. -/
theorem View.effect_runs_le {call : Nat} {v v' : View} {stmt : Stmt}
    (h : v.effect call stmt = some v') (kind : Kind) (i : Nat) : v.runs kind i ≤ v'.runs kind i := by
  cases stmt with
  | setNumSpawnedThreads | growFor | kick => cases h
  | release gate =>
    simp only [View.effect, Option.ite_none_right_eq_some] at h
    obtain ⟨-, h⟩ := h
    split at h
    · cases h
      exact Nat.le_add_right _ _
    · cases h
      exact Nat.le_refl _
  | beginAction | endAction =>
    simp only [View.effect, Option.ite_none_right_eq_some, Option.some.injEq] at h
    obtain ⟨-, rfl⟩ := h
    exact Nat.le_add_right _ _
  | _ =>
    simp only [View.effect, Option.ite_none_right_eq_some, Option.some.injEq] at h
    obtain ⟨-, rfl⟩ := h
    exact Nat.le_refl _

theorem Leads.runs_le {call : Nat} {xs : List Stmt} {v u : View} (h : Leads call xs v u)
    (kind : Kind) (i : Nat) : v.runs kind i ≤ u.runs kind i := by
  induction h with
  | done v => exact Nat.le_refl _
  | effect heff _ ih => exact Nat.le_trans (View.effect_runs_le heff kind i) ih
  | setNumSpawnedThreads _ ih | grows _ _ ih | fits _ _ ih | kick _ ih => exact ih

/-! ## Following the bodies -/

variable (call : Nat) {v : View}

theorem resetAction_leads (hside : v.side = .between) :
    Leads call resetAction v { v with threadFilter := -1, action := .noAction, param := .null } :=
  .effect (if_pos hside) (.effect (if_pos hside) (.effect (if_pos hside) (.done _)))

/-- Kicking the start gate runs the installed action once for each worker that stays. -/
theorem startRound_leads (hside : v.side = .between) (hinst : v.Installed call) {count : Nat}
    (hcount : count + 1 = v.roles.length) :
    Leads call (kickGate .startGate count) v
      { v with
        side := .within
        gathered := false
        runs := fun kind i => v.runs kind i + v.due call i } := by
  obtain ⟨side, gathered, roles, filter, action, param, runs⟩ := v
  cases hside
  refine .effect (if_pos ⟨rfl, hcount, nofun⟩) (.effect (if_pos ⟨rfl, rfl, hinst, nofun⟩) (.done _))

theorem endRound_leads (hside : v.side = .within) (hinst : v.Installed call) {count : Nat}
    (hcount : count + 1 = v.roles.length) (hstays : ∀ r ∈ v.roles, r = .stays) :
    Leads call (kickGate .endGate count) v { v with side := .between, gathered := false } := by
  obtain ⟨side, gathered, roles, filter, action, param, runs⟩ := v
  cases hside
  refine .effect (if_pos ⟨rfl, hcount, fun _ => hstays⟩)
    (.effect (if_pos ⟨rfl, rfl, hinst, fun _ => hstays⟩) (.done _))

theorem spawn_leads (hside : v.side = .between) (hg : v.gathered = false) (k : Nat) :
    Leads call (List.replicate k .spawn) v { v with roles := v.roles ++ List.replicate k .stays } := by
  induction k generalizing v with
  | zero =>
    rw [List.replicate_zero, List.replicate_zero, List.append_nil]
    exact .done v
  | succ k ih =>
    rw [List.replicate_succ, List.replicate_succ, List.append_cons]
    exact .effect (if_pos ⟨hside, hg⟩) (ih (v := { v with roles := v.roles ++ [.stays] }) hside hg)

theorem set_append_length {α : Type} (xs : List α) (a b : α) (ys : List α) :
    (xs ++ a :: ys).set xs.length b = xs ++ [b] ++ ys := by
  rw [List.set_append_right _ _ (Nat.le_refl _), Nat.sub_self, List.set_cons_zero]
  simp

/-- A loop over the last threads, each turn of which changes the role of one. -/
theorem loop_leads {stmt : Nat → Stmt} {r r' : Role}
    (heff : ∀ xs ys : List Role, 0 < xs.length →
      View.effect call { v with roles := xs ++ r :: ys } (stmt xs.length) =
        some { v with roles := xs ++ [r'] ++ ys })
    (xs : List Role) (hxs : 0 < xs.length) (k : Nat) :
    Leads call ((List.range' xs.length k).map stmt)
      { v with roles := xs ++ List.replicate k r } { v with roles := xs ++ List.replicate k r' } := by
  induction k generalizing xs with
  | zero => exact .done _
  | succ k ih =>
    rw [List.range'_succ, List.map_cons, List.replicate_succ, List.replicate_succ]
    refine .effect (heff xs _ hxs) ?_
    have hrest := ih (xs ++ [r']) (by simp)
    rw [List.length_append, List.length_singleton] at hrest
    rw [List.append_cons xs r' (List.replicate k r')]
    exact hrest

theorem setMustExit_leads (hside : v.side = .between) (xs : List Role) (hxs : 0 < xs.length)
    (k : Nat) :
    Leads call ((List.range' xs.length k).map .setMustExit)
      { v with roles := xs ++ List.replicate k .stays }
      { v with roles := xs ++ List.replicate k .leaves } := by
  refine loop_leads call (fun xs ys hxs => ?_) xs hxs k
  refine (if_pos ⟨hside, hxs, by simp⟩).trans ?_
  rw [set_append_length]

theorem join_leads (hside : v.side = .within) (hg : v.gathered = false) (xs : List Role)
    (hxs : 0 < xs.length) (k : Nat) :
    Leads call ((List.range' xs.length k).map .join)
      { v with roles := xs ++ List.replicate k .leaves }
      { v with roles := xs ++ List.replicate k .left } := by
  refine loop_leads call (fun xs ys hxs => ?_) xs hxs k
  refine (if_pos ⟨hside, hg, hxs, by simp⟩).trans ?_
  rw [set_append_length]

theorem View.due_of_noAction (h : v.action = .noAction) (i : Nat) : v.due call i = 0 := by
  apply if_neg
  intro hdue
  rw [h] at hdue
  exact absurd hdue.2.2.1 nofun

/-- Shrinking runs a round of `noAction`, after which the last threads are gone. -/
theorem shrink_leads (hside : v.side = .between) (hg : v.gathered = false) {old n : Nat}
    (hn : 0 < n) (hlt : n < old) (hroles : v.roles = List.replicate old .stays) :
    Leads call (shrink old n) v
      { v with
        roles := List.replicate n .stays
        threadFilter := -1
        action := .noAction
        param := .null } := by
  obtain ⟨side, gathered, roles, filter, action, param, runs⟩ := v
  cases hside
  cases hg
  cases hroles
  have hlen : (List.replicate n Role.stays).length = n := List.length_replicate
  have hpos : 0 < (List.replicate n Role.stays).length := by omega
  have hsplit : List.replicate old Role.stays =
      List.replicate n .stays ++ List.replicate (old - n) .stays := by
    rw [← List.replicate_add, Nat.add_sub_cancel' (Nat.le_of_lt hlt)]
  -- the view after `resetAction`, with the roles, the side and the gathering that vary below
  let w (side : Side) (last : Role) : View :=
    ⟨side, false, List.replicate n .stays ++ List.replicate (old - n) last, -1, .noAction, .null, runs⟩
  have hreset : Leads call resetAction ⟨.between, false, List.replicate old .stays, filter, action,
      param, runs⟩ (w .between .stays) := by
    rw [hsplit]
    exact resetAction_leads call rfl
  have hmark := setMustExit_leads call (v := w .between .stays) rfl _ hpos (old - n)
  have hround : Leads call (kickGate .startGate (old - 1)) (w .between .leaves) (w .within .leaves) := by
    have hcount : old - 1 + 1 = (w .between .leaves).roles.length := by
      simp only [w, List.length_append, List.length_replicate]
      omega
    have h := startRound_leads call (v := w .between .leaves) rfl (Or.inl ⟨rfl, rfl⟩) hcount
    simpa only [View.due_of_noAction call (v := w .between .leaves) rfl, Nat.add_zero] using h
  have hjoin := join_leads call (v := w .within .leaves) rfl rfl _ hpos (old - n)
  rw [hlen] at hmark hjoin
  have hresize : Leads call [.resize n] (w .within .left)
      { w .within .left with roles := List.replicate n .stays } := by
    have hleft : ∀ r ∈ (w .within .left).roles.drop n, r = .left := by
      intro r hr
      rw [List.drop_left' hlen] at hr
      exact List.eq_of_mem_replicate hr
    refine .effect ((if_pos ⟨rfl, hn, hleft⟩).trans ?_) (.done _)
    rw [List.take_left' hlen]
  have hcount : n - 1 + 1 = (List.replicate n Role.stays).length := by omega
  have hend := endRound_leads call (v := { w .within .left with roles := List.replicate n .stays })
    rfl (Or.inl ⟨rfl, rfl⟩) hcount fun r hr => List.eq_of_mem_replicate hr
  exact ((((hreset.append hmark).append hround).append hjoin).append hresize).append hend

theorem setNumSpawnedThreads_leads (hside : v.side = .between) (hg : v.gathered = false)
    {old n : Nat} (hn : 0 < n) (hroles : v.roles = List.replicate old .stays) :
    Leads call [.setNumSpawnedThreads n] v
      (if n < old then
        { v with
          roles := List.replicate n .stays
          threadFilter := -1
          action := .noAction
          param := .null }
      else { v with roles := List.replicate n .stays }) := by
  have hlen : v.roles.length = old := by rw [hroles, List.length_replicate]
  refine .setNumSpawnedThreads ?_
  rw [List.append_nil, hlen, setNumSpawnedThreads]
  split
  · rename_i hlt
    exact shrink_leads call hside hg hn hlt hroles
  · have hspawn := spawn_leads call hside hg (n - old)
    rw [hroles, ← List.replicate_add] at hspawn
    rwa [show old + (n - old) = n by omega] at hspawn

/-! ## What a call comes to -/

/-- Between two calls, with the counts of the call just made. -/
def rested (size : Nat) (runs : Nat → Nat) : View :=
  ⟨.between, false, List.replicate size .stays, -1, .noAction, .null, fun _ => runs⟩

/-- `setNumSpawnedThreads` asserts that its argument is positive. -/
def Call.Valid : Call → Prop
  | .setNumSpawnedThreads numThreads => 0 < numThreads
  | .kickMulti numTargets => 0 < numTargets
  | _ => True

instance (c : Call) : Decidable c.Valid :=
  match c with
  | .setNumSpawnedThreads numThreads => inferInstanceAs (Decidable (0 < numThreads))
  | .kickMulti numTargets => inferInstanceAs (Decidable (0 < numTargets))
  | .kick | .kickOne _ => inferInstanceAs (Decidable True)

/-- The size of the pool after the call, from its size before. -/
def Call.sizeAfter (size : Nat) : Call → Nat
  | .setNumSpawnedThreads numThreads => numThreads
  | .kick => size
  | .kickOne threadIndex => max size (threadIndex + 1)
  | .kickMulti numTargets => numTargets

/-- How often the call executes its action with thread index `i`. A `kickMulti` that
shrinks the pool has its action reset before any thread could run it. -/
def Call.runs (size i : Nat) : Call → Nat
  | .setNumSpawnedThreads _ => 0
  | .kick => if i < size then 1 else 0
  | .kickOne threadIndex => if i = threadIndex then 1 else 0
  | .kickMulti numTargets => if size ≤ numTargets ∧ i < numTargets then 1 else 0

/-- Between two calls, but with the action of call `call` installed. -/
def installed (size : Nat) (filter : Int) : View :=
  { rested size fun _ => 0 with
    threadFilter := filter
    action := .thunk call
    param := .closure call }

/-- A round of what is installed, which the main thread runs too when `own` holds. -/
theorem round_leads {size : Nat} (hsize : 0 < size) (own : Prop) [Decidable own] (runs : Nat → Nat)
    (hside : v.side = .between) (hg : v.gathered = false)
    (hroles : v.roles = List.replicate size .stays) (hinst : v.Installed call)
    (hzero : v.runs = fun _ _ => 0) (hruns : ∀ i, v.due call i + (if own then v.own call i else 0) = runs i) :
    Leads call
      ([.kick .startGate] ++ (if own then [.beginAction, .endAction] else []) ++ [.kick .endGate] ++
        resetAction)
      v (rested size runs) := by
  obtain rfl : (fun i => v.due call i + (if own then v.own call i else 0)) = runs := funext hruns
  obtain ⟨side, gathered, roles, filter, action, param, counts⟩ := v
  cases hside
  cases hg
  cases hroles
  cases hzero
  have hcount : size - 1 + 1 = (List.replicate size Role.stays).length := by
    rw [List.length_replicate]
    omega
  let w (side : Side) (counts : Kind → Nat → Nat) : View :=
    ⟨side, false, List.replicate size .stays, filter, action, param, counts⟩
  let v : View := w .between fun _ _ => 0
  have hstart : Leads call [.kick .startGate] v (w .within fun _ => v.due call) := by
    refine .kick ?_
    simpa [w, v, kickGate] using startRound_leads call (v := v) rfl hinst hcount
  have hown : Leads call (if own then [.beginAction, .endAction] else []) (w .within fun _ => v.due call)
      (w .within fun _ i => v.due call i + (if own then v.own call i else 0)) := by
    by_cases hown : own
    · simp only [if_pos hown]
      have h : Leads call [.beginAction, .endAction] (w .within fun _ => v.due call) _ :=
        .effect (if_pos hinst) (.effect (if_pos hinst) (.done _))
      have hplus : View.plus { w .within fun _ => v.due call with
          runs := View.plus (w .within fun _ => v.due call) .began (v.own call) } .ended (v.own call) =
            fun _ i => v.due call i + v.own call i := by
        funext kind i
        cases kind with
        | began => rfl
        | ended => rfl
      exact hplus ▸ h
    · simp only [if_neg hown]
      exact .done _
  have hend : ∀ counts, Leads call [.kick .endGate] (w .within counts) (w .between counts) := by
    intro counts
    have hcount' : (w .within counts).roles.length - 1 + 1 = (w .within counts).roles.length := by
      simp only [w, List.length_replicate]
      omega
    exact .kick (endRound_leads call (v := w .within counts) rfl hinst hcount'
      fun r hr => List.eq_of_mem_replicate hr)
  exact ((hstart.append hown).append (hend _)).append (resetAction_leads call rfl)

theorem installed_due (size : Nat) (filter : Int) (i : Nat) :
    (installed call size filter).due call i =
      if 0 < i ∧ i < size ∧ (filter < 0 ∨ filter = i) then 1 else 0 := by
  unfold View.due View.Picks
  simp only [installed, rested, List.getElem?_replicate, Option.ite_none_right_eq_some, and_true,
    true_and]

theorem installed_own (size : Nat) (filter : Int) (i : Nat) :
    (installed call size filter).own call i = if i = 0 then 1 else 0 := by
  simp only [View.own, installed, and_true]

/-- **What a call comes to.** Its body takes a dispatcher at rest to one at rest, with the
pool and the executions of the table above. -/
theorem body_leads {c : Call} (hc : c.Valid) {size : Nat} (hsize : 0 < size) :
    Leads call (c.body call) (rested size fun _ => 0)
      (rested (c.sizeAfter size) fun i => c.runs size i) := by
  have hinst : ∀ size filter, (installed call size filter).Installed call :=
    fun _ _ => Or.inr ⟨rfl, rfl⟩
  cases c with
  | setNumSpawnedThreads n =>
    have h := setNumSpawnedThreads_leads call (v := rested size fun _ => 0) rfl rfl hc rfl
    split at h
    · exact h
    · exact h
  | kick =>
    have hinstall : Leads call [.setAction (.thunk call), .setParam (.closure call)]
        (rested size fun _ => 0) (installed call size (-1)) :=
      .effect rfl (.effect rfl (.done _))
    have hround := round_leads call hsize True (fun i => Call.kick.runs size i) rfl rfl rfl
      (hinst size (-1)) rfl (by
        intro i
        rw [installed_due, installed_own, Call.runs]
        split_ifs <;> omega)
    exact hinstall.append hround
  | kickOne t =>
    have hinstall : Leads call [.setThreadFilter t, .setAction (.thunk call), .setParam (.closure call)]
        (rested size fun _ => 0) (installed call size t) :=
      .effect rfl (.effect rfl (.effect rfl (.done _)))
    have hgrow : Leads call [.growFor t] (installed call size t)
        (installed call (max size (t + 1)) t) := by
      have hlen : (installed call size t).roles.length = size := List.length_replicate
      by_cases hlt : t < size
      · rw [Nat.max_eq_left hlt]
        exact .fits (by omega) (.done _)
      · rw [Nat.max_eq_right (by omega)]
        refine .grows (by omega) ?_
        have h := setNumSpawnedThreads_leads call (v := installed call size t) (n := t + 1) rfl rfl
          (by omega) rfl
        rwa [if_neg (by omega)] at h
    have hpos : 0 < max size (t + 1) := Nat.lt_of_lt_of_le hsize (Nat.le_max_left size (t + 1))
    have hround := round_leads call hpos (t = 0) (fun i => (Call.kickOne t).runs size i) rfl rfl rfl
      (hinst (max size (t + 1)) t) rfl (by
        intro i
        rw [installed_due, installed_own, Call.runs]
        split_ifs <;> omega)
    have hall := (hinstall.append hgrow).append hround
    rw [Call.body, kickOne, Call.sizeAfter]
    simpa only [List.append_assoc, List.cons_append, List.nil_append] using hall
  | kickMulti n =>
    have hinstall : Leads call [.setAction (.thunk call), .setParam (.closure call)]
        (rested size fun _ => 0) (installed call size (-1)) :=
      .effect rfl (.effect rfl (.done _))
    have hresize := setNumSpawnedThreads_leads call (v := installed call size (-1)) (n := n) rfl rfl
      hc rfl
    by_cases hlt : n < size
    · rw [if_pos hlt] at hresize
      have hround := round_leads call hc True (v := rested n fun _ => 0)
        (fun i => (Call.kickMulti n).runs size i) rfl rfl rfl (Or.inl ⟨rfl, rfl⟩) rfl (by
          intro i
          rw [View.due_of_noAction call rfl, View.own, Call.runs]
          simp [rested, show ¬size ≤ n by omega])
      exact (hinstall.append hresize).append hround
    · rw [if_neg hlt] at hresize
      have hround := round_leads call hc True (fun i => (Call.kickMulti n).runs size i) rfl rfl rfl
        (hinst n (-1)) rfl (by
          intro i
          rw [installed_due, installed_own, Call.runs]
          have hle : size ≤ n := by omega
          split_ifs <;> omega)
      exact (hinstall.append hresize).append hround

end Turf.Dispatch
