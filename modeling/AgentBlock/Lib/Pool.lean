/-
AgentBlock/Lib/Pool.lean

Any number of calls in flight over one shared state.

A call `c` runs the program `body c`.  At any moment a new call may be made,
if `allowed s c` lets it in the state `s` the pool is in, or some call that is
in flight may perform its next operation, atomically, as `sem` says.  A pool
therefore reaches every interleaving of its calls at the grain of one
operation, and it remembers them: a call that has returned stays in the list
with what it performed.

Main results:

* `Pool.inv` — what every operation of every allowed call keeps, every
  reachable pool has;
* `Pool.inv_threads` — the same of the state and of where each call is;
* `Pool.account` — what the threads were charged is bounded by how far a
  measure of the state has moved;
* `Pool.thread_view` — each thread of a reachable pool took a path
  `Prog.Seen` of its own program, the others moving the state in between;
* `Pool.runs_turns` — taking turns in a given order is one interleaving.
-/
import AgentBlock.Lib.Prog
import Mathlib.Algebra.BigOperators.Group.List.Basic
import Mathlib.Tactic.Linarith

namespace Interleaving

universe u v w x y

/-- A call in flight: what was called, what it performed, what is left. -/
structure Thread (σ : Type x) (C : Type y) (Op : Type u) (Ans : Op → Type v)
    (ρ : Type w) where
  call : C
  done : List (Performed σ Op Ans)
  rest : Prog Op Ans ρ

/-- A shared state and the calls made over it, oldest first. -/
structure Pool (σ : Type x) (C : Type y) (Op : Type u) (Ans : Op → Type v)
    (ρ : Type w) where
  shared : σ
  threads : List (Thread σ C Op Ans ρ)

variable {Op : Type u} {Ans : Op → Type v} {ρ : Type w} {σ : Type x} {C : Type y}
variable (sem : (e : Op) → σ → Ans e → σ → Prop) (body : C → Prog Op Ans ρ)
variable (allowed : σ → C → Prop)

/-- What one operation of some allowed call may do to the state: `issues`
says which operations a call can issue. -/
def Env (issues : C → Op → Prop) (s s' : σ) : Prop :=
  ∃ c e a, allowed s c ∧ issues c e ∧ sem e s a s'

namespace Pool

/-- One step of the pool. -/
inductive Step : Pool σ C Op Ans ρ → Pool σ C Op Ans ρ → Prop
  | call {s : σ} {ts : List (Thread σ C Op Ans ρ)} (c : C) :
      allowed s c → Step ⟨s, ts⟩ ⟨s, ts ++ [⟨c, [], body c⟩]⟩
  | perform {s s' : σ} (l r : List (Thread σ C Op Ans ρ)) {c : C}
      {done : List (Performed σ Op Ans)} {e : Op} {k : Ans e → Prog Op Ans ρ}
      {a : Ans e} : sem e s a s' →
      Step ⟨s, l ++ ⟨c, done, .op e k⟩ :: r⟩
        ⟨s', l ++ ⟨c, done ++ [⟨e, s, a, s'⟩], k a⟩ :: r⟩

/-- Any number of steps. -/
abbrev Runs : Pool σ C Op Ans ρ → Pool σ C Op Ans ρ → Prop :=
  Relation.ReflTransGen (Step sem body allowed)

/-- No call was made yet. -/
def start (s : σ) : Pool σ C Op Ans ρ := ⟨s, []⟩

/-! ### What a call may issue, and when it may be made -/

/-- `issues` lists every operation of every call, and a call that was allowed
stays allowed. -/
structure Governed (issues : C → Op → Prop) : Prop where
  all : ∀ c, (body c).All (issues c)
  persists : ∀ c e s a s', allowed s c → sem e s a s' → allowed s' c

variable {sem body allowed} {issues : C → Op → Prop}

/-! ### What every step keeps -/

/-- Every thread runs a call the state allows, and what is left of it issues
only what that call may issue. -/
def OnPath (allowed : σ → C → Prop) (issues : C → Op → Prop)
    (p : Pool σ C Op Ans ρ) : Prop :=
  ∀ t ∈ p.threads, allowed p.shared t.call ∧ t.rest.All (issues t.call)

theorem OnPath.head {s : σ} {l r : List (Thread σ C Op Ans ρ)}
    {t : Thread σ C Op Ans ρ} (h : OnPath allowed issues ⟨s, l ++ t :: r⟩) :
    allowed s t.call ∧ t.rest.All (issues t.call) :=
  h t (by simp)

theorem onPath (hg : Governed sem body allowed issues) {s₀ : σ}
    {p : Pool σ C Op Ans ρ} (h : Runs sem body allowed (start s₀) p) :
    OnPath allowed issues p := by
  induction h with
  | refl => exact fun t ht => absurd ht List.not_mem_nil
  | tail _ hstep ih =>
      cases hstep with
      | call c hc =>
          intro t ht
          rcases List.mem_append.mp ht with ht | ht
          · exact ih t ht
          · obtain rfl := List.mem_singleton.mp ht
            exact ⟨hc, hg.all c⟩
      | perform l r hsem =>
          obtain ⟨hc, hall⟩ := ih.head
          intro t ht
          rcases List.mem_append.mp ht with ht | ht
          · obtain ⟨hc', hall'⟩ := ih t (List.mem_append_left _ ht)
            exact ⟨hg.persists _ _ _ _ _ hc' hsem, hall'⟩
          · rcases List.mem_cons.mp ht with rfl | ht
            · exact ⟨hg.persists _ _ _ _ _ hc hsem, hall.2 _⟩
            · obtain ⟨hc', hall'⟩ :=
                ih t (List.mem_append_right _ (List.mem_cons_of_mem _ ht))
              exact ⟨hg.persists _ _ _ _ _ hc' hsem, hall'⟩

/-- The state of a reachable pool is reached by what the calls may do. -/
theorem reach (hg : Governed sem body allowed issues) {s₀ : σ}
    {p : Pool σ C Op Ans ρ} (h : Runs sem body allowed (start s₀) p) :
    Relation.ReflTransGen (Env sem allowed issues) s₀ p.shared := by
  induction h with
  | refl => exact .refl
  | tail hrun hstep ih =>
      cases hstep with
      | call => exact ih
      | perform l r hsem =>
          obtain ⟨hc, hall⟩ := (onPath hg hrun).head
          exact ih.tail ⟨_, _, _, hc, hall.1, hsem⟩

/-- The invariant rule. -/
theorem inv (hg : Governed sem body allowed issues) {I : σ → Prop}
    (hI : ∀ s s', Env sem allowed issues s s' → I s → I s') {s₀ : σ}
    {p : Pool σ C Op Ans ρ} (h₀ : I s₀)
    (h : Runs sem body allowed (start s₀) p) : I p.shared := by
  have hr := reach hg h
  generalize p.shared = s at hr ⊢
  induction hr with
  | refl => exact h₀
  | tail _ hstep ih => exact hI _ _ hstep ih

/-- The invariant rule for a state together with where each call is: an own
operation keeps both, and what it does to the state moves no other call from
where it is. -/
theorem inv_threads {I : σ → Prop} {le : σ → σ → Prop}
    {T : σ → C → List (Performed σ Op Ans) → Prog Op Ans ρ → Prop}
    (hcall : ∀ s c, I s → allowed s c → T s c [] (body c))
    (hown : ∀ s c done e k a s', I s → T s c done (.op e k) → sem e s a s' →
      I s' ∧ le s s' ∧ T s' c (done ++ [⟨e, s, a, s'⟩]) (k a))
    (hframe : ∀ s s' c done rest, le s s' → T s c done rest → T s' c done rest)
    {s₀ : σ} {p : Pool σ C Op Ans ρ} (h₀ : I s₀) (h : Runs sem body allowed (start s₀) p) :
    I p.shared ∧ ∀ t ∈ p.threads, T p.shared t.call t.done t.rest := by
  induction h with
  | refl => exact ⟨h₀, fun t ht => absurd ht List.not_mem_nil⟩
  | tail _ hstep ih =>
      obtain ⟨hs, hts⟩ := ih
      cases hstep with
      | call c hc =>
          refine ⟨hs, fun t ht => ?_⟩
          rcases List.mem_append.mp ht with ht | ht
          · exact hts t ht
          · obtain rfl := List.mem_singleton.mp ht
            exact hcall _ c hs hc
      | @perform s s' l r c done e k a hsem =>
          obtain ⟨hs', hle, hnew⟩ := hown s c done e k a s' hs (hts ⟨c, done, .op e k⟩ (by simp)) hsem
          refine ⟨hs', fun t ht => ?_⟩
          rcases List.mem_append.mp ht with ht | ht
          · exact hframe _ _ _ _ _ hle (hts t (List.mem_append_left _ ht))
          · rcases List.mem_cons.mp ht with rfl | ht
            · exact hnew
            · exact hframe _ _ _ _ _ hle
                (hts t (List.mem_append_right _ (List.mem_cons_of_mem _ ht)))

/-! ### What the threads were charged -/

/-- What a thread was charged for everything it performed. -/
def bill (charge : C → Performed σ Op Ans → ℤ) (t : Thread σ C Op Ans ρ) : ℤ :=
  (t.done.map (charge t.call)).sum

/-- If each operation charges its thread at most what it moves the measure
`μ` by, all the threads together were charged at most what `μ` moved by. -/
theorem account (hg : Governed sem body allowed issues) {I : σ → Prop} (μ : σ → ℤ)
    (charge : C → Performed σ Op Ans → ℤ)
    (hI : ∀ s s', Env sem allowed issues s s' → I s → I s')
    (hcharge : ∀ c e s a s', allowed s c → issues c e → I s → sem e s a s' →
      charge c ⟨e, s, a, s'⟩ ≤ μ s' - μ s)
    {s₀ : σ} {p : Pool σ C Op Ans ρ} (h₀ : I s₀)
    (h : Runs sem body allowed (start s₀) p) :
    (p.threads.map (bill charge)).sum ≤ μ p.shared - μ s₀ := by
  induction h with
  | refl => simp [start]
  | tail hrun hstep ih =>
      have hs := inv hg hI h₀ hrun
      have hpath := onPath hg hrun
      cases hstep with
      | call c hc => simpa [bill] using ih
      | perform l r hsem =>
          obtain ⟨hc, hall⟩ := hpath.head
          have := hcharge _ _ _ _ _ hc hall.1 hs hsem
          simp only [bill, List.map_append, List.map_cons, List.map_nil,
            List.sum_append, List.sum_cons, List.sum_nil] at ih ⊢
          linarith

/-! ### One thread among the others -/

/-- Each thread of a reachable pool was called in some state reached from the
first one, and saw from there on its own operations with the others'
in between. -/
theorem thread_view (hg : Governed sem body allowed issues) {s₀ : σ}
    {p : Pool σ C Op Ans ρ} (h : Runs sem body allowed (start s₀) p) :
    ∀ t ∈ p.threads, ∃ s, Relation.ReflTransGen (Env sem allowed issues) s₀ s ∧
      allowed s t.call ∧ Prog.Seen sem (Env sem allowed issues) (body t.call) s
        t.done t.rest p.shared := by
  induction h with
  | refl => exact fun t ht => absurd ht List.not_mem_nil
  | tail hrun hstep ih =>
      have hpath := onPath hg hrun
      have hreach := reach hg hrun
      cases hstep with
      | call c hc =>
          intro t ht
          rcases List.mem_append.mp ht with ht | ht
          · exact ih t ht
          · obtain rfl := List.mem_singleton.mp ht
            exact ⟨_, hreach, hc, .refl _ _⟩
      | @perform s s' l r c done e k a hsem =>
          obtain ⟨hc, hall⟩ := hpath.head
          have henv : Env sem allowed issues s s' := ⟨c, e, a, hc, hall.1, hsem⟩
          -- the thread that moved has one more operation of its own, every
          -- other thread one more step of the others
          have hother : ∀ t ∈ l ++ r, ∃ s₁,
              Relation.ReflTransGen (Env sem allowed issues) s₀ s₁ ∧
              allowed s₁ t.call ∧ Prog.Seen sem (Env sem allowed issues)
                (body t.call) s₁ t.done t.rest s' := by
            intro t ht
            obtain ⟨s₁, h₁, h₂, h₃⟩ := ih t (by
              rcases List.mem_append.mp ht with ht | ht <;> simp [ht])
            exact ⟨s₁, h₁, h₂, h₃.other henv⟩
          intro t ht
          rcases List.mem_append.mp ht with ht | ht
          · exact hother t (List.mem_append_left _ ht)
          · rcases List.mem_cons.mp ht with rfl | ht
            · obtain ⟨s₁, h₁, h₂, h₃⟩ := ih ⟨c, done, .op e k⟩ (by simp)
              exact ⟨s₁, h₁, h₂, h₃.own hsem⟩
            · exact hother t (List.mem_append_right _ ht)

/-- Each operation a thread performed was one its call may issue, on a state
reached from the first one. -/
theorem performed (hg : Governed sem body allowed issues) {s₀ : σ}
    {p : Pool σ C Op Ans ρ} (h : Runs sem body allowed (start s₀) p) :
    ∀ t ∈ p.threads, ∀ d ∈ t.done, Relation.ReflTransGen (Env sem allowed issues) s₀ d.before ∧
      allowed d.before t.call ∧ issues t.call d.op ∧ sem d.op d.before d.ans d.after := by
  induction h with
  | refl => exact fun t ht => absurd ht List.not_mem_nil
  | tail hrun hstep ih =>
      have hpath := onPath hg hrun
      have hreach := reach hg hrun
      cases hstep with
      | call c hc =>
          intro t ht
          rcases List.mem_append.mp ht with ht | ht
          · exact ih t ht
          · obtain rfl := List.mem_singleton.mp ht
            exact fun d hd => absurd hd List.not_mem_nil
      | @perform s s' l r c done e k a hsem =>
          obtain ⟨hc, hall⟩ := hpath.head
          intro t ht
          rcases List.mem_append.mp ht with ht | ht
          · exact ih t (List.mem_append_left _ ht)
          · rcases List.mem_cons.mp ht with rfl | ht
            · intro d hd
              rcases List.mem_append.mp hd with hd | hd
              · exact ih ⟨c, done, .op e k⟩ (by simp) d hd
              · obtain rfl := List.mem_singleton.mp hd
                exact ⟨hreach, hc, hall.1, hsem⟩
            · exact ih t (List.mem_append_right _ (List.mem_cons_of_mem _ ht))

/-! ### Runs turn by turn -/

/-- A turn of a run: a call is made, or the `i`-th one goes on. -/
inductive Turn (C : Type y) where
  | call (c : C)
  | perform (i : Nat)

/-- Take one turn, on a state that answers as `answer` says.  A call that has
returned lets its turn pass. -/
def turn (answer : (e : Op) → σ → Ans e × σ) (body : C → Prog Op Ans ρ)
    (p : Pool σ C Op Ans ρ) : Turn C → Pool σ C Op Ans ρ
  | .call c => ⟨p.shared, p.threads ++ [⟨c, [], body c⟩]⟩
  | .perform i =>
      match p.threads[i]? with
      | some ⟨c, done, .op e k⟩ =>
          ⟨(answer e p.shared).2, p.threads.set i
            ⟨c, done ++ [⟨e, p.shared, (answer e p.shared).1, (answer e p.shared).2⟩],
              k (answer e p.shared).1⟩⟩
      | _ => p

/-- Take turns in the order given. -/
def turns (answer : (e : Op) → σ → Ans e × σ) (body : C → Prog Op Ans ρ) :
    List (Turn C) → Pool σ C Op Ans ρ → Pool σ C Op Ans ρ
  | [], p => p
  | t :: ts, p => turns answer body ts (turn answer body p t)

/-- Each call is allowed when it is made. -/
def TurnsAllowed (answer : (e : Op) → σ → Ans e × σ) (body : C → Prog Op Ans ρ)
    (allowed : σ → C → Prop) : List (Turn C) → Pool σ C Op Ans ρ → Prop
  | [], _ => True
  | .call c :: ts, p =>
      allowed p.shared c ∧ TurnsAllowed answer body allowed ts (turn answer body p (.call c))
  | .perform i :: ts, p =>
      TurnsAllowed answer body allowed ts (turn answer body p (.perform i))

variable {answer : (e : Op) → σ → Ans e × σ}

theorem runs_perform (hans : ∀ e s, sem e s (answer e s).1 (answer e s).2)
    (p : Pool σ C Op Ans ρ) (i : Nat) :
    Runs sem body allowed p (turn answer body p (.perform i)) := by
  simp only [turn]
  split
  · rename_i c done e k hi
    obtain ⟨hlt, hget⟩ := List.getElem?_eq_some_iff.mp hi
    have hsplit : p = ⟨p.shared, p.threads.take i ++ ⟨c, done, .op e k⟩ ::
        p.threads.drop (i + 1)⟩ := by
      rw [← hget, List.cons_getElem_drop_succ, List.take_append_drop]
    rw [List.set_eq_take_append_cons_drop, if_pos hlt]
    refine .single ?_
    nth_rewrite 1 [hsplit]
    exact .perform _ _ (hans e p.shared)
  · exact .refl

/-- **Taking turns is one of the interleavings.** -/
theorem runs_turns (hans : ∀ e s, sem e s (answer e s).1 (answer e s).2) {ts : List (Turn C)}
    {p : Pool σ C Op Ans ρ} (h : TurnsAllowed answer body allowed ts p) :
    Runs sem body allowed p (turns answer body ts p) := by
  induction ts generalizing p with
  | nil => exact .refl
  | cons t ts ih =>
      cases t with
      | call c => exact .head (.call c h.1) (ih h.2)
      | perform i => exact .trans (runs_perform hans p i) (ih h)

end Pool

end Interleaving
