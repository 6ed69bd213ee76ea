/-
AgentBlock/Lib/Crash.lean

Programs that may stop anywhere and are started again.

`Prog.Safe sem I Q p s` is the crash triple of `p` at `s`: `I` holds at every
moment the program may stop, and `Q` of the value it returns.  A program that
is `Safe` from every state `I` allows may be stopped and started over any
number of times (`Restarts`) and never leaves `I`.

Main results:

* `Safe.seen` — a crash triple is about every path;
* `Restarts.inv` — what each run keeps at every moment, any number of stopped
  runs keep;
* `Restarts.returned` — and a run that gets to the end returns what it should.
-/
import AgentBlock.Lib.Prog

namespace Interleaving

universe u v w x

variable {Op : Type u} {Ans : Op → Type v} {α β : Type w} {σ : Type x}

namespace Prog

variable {sem : (e : Op) → σ → Ans e → σ → Prop} {I J : σ → Prop}

/-- `I` holds wherever `p` may stop, and `Q` where it returns. -/
def Safe (sem : (e : Op) → σ → Ans e → σ → Prop) (I : σ → Prop) (Q : α → σ → Prop) :
    Prog Op Ans α → σ → Prop :=
  Guarded sem (fun s _ => I s) fun a s => I s ∧ Q a s

section

variable {Q Q' : α → σ → Prop} {p q : Prog Op Ans α} {s s' : σ}

theorem Safe.now (h : p.Safe sem I Q s) : I s := by
  cases p with
  | ret => exact h.1
  | op => exact h.1

/-- A crash triple of a sequence is one of its first half that ends where the
second half has one. -/
theorem safe_bind {f : β → Prog Op Ans α} {p : Prog Op Ans β}
    (h : p.Safe sem I (fun b s => (f b).Safe sem I Q s) s) : (p >>= f).Safe sem I Q s :=
  guarded_bind (Guarded.mono (fun _ _ hI => hI) (fun _ _ hQ => hQ.2) h)

/-- What is returned is returned where `I` holds. -/
theorem Safe.weaken (hI : ∀ s, I s → J s) (hQ : ∀ a s, I s → Q a s → Q' a s)
    (h : p.Safe sem I Q s) : p.Safe sem J Q' s :=
  Guarded.mono (fun _ _ => hI _) (fun _ _ hr => ⟨hI _ hr.1, hQ _ _ hr.1 hr.2⟩) h

/-- **A crash triple is about every path.** -/
theorem Safe.seen {tr : List (Performed σ Op Ans)} (h : p.Safe sem I Q s)
    (hp : p.Seen sem Alone s tr q s') : q.Safe sem I Q s' :=
  (Guarded.seen h hp).2

end

/-! ### Programs that may fail -/

section

variable {ε : Type w} {Q : α → σ → Prop} {s : σ}

/-- The crash triple of a program that may fail: a failure promises nothing
besides `I`. -/
def SafeOk (sem : (e : Op) → σ → Ans e → σ → Prop) (I : σ → Prop) (Q : α → σ → Prop)
    (m : ExceptT ε (Prog Op Ans) α) (s : σ) : Prop :=
  m.run.Safe sem I (fun r s => ∀ a, r = .ok a → Q a s) s

theorem safeOk_pure {a : α} (hI : I s) (hQ : Q a s) :
    SafeOk sem I Q (pure a : ExceptT ε (Prog Op Ans) α) s :=
  ⟨hI, fun _ h => by cases h; exact hQ⟩

theorem safeOk_bind {m : ExceptT ε (Prog Op Ans) β} {f : β → ExceptT ε (Prog Op Ans) α}
    (h : SafeOk sem I (fun b s => SafeOk sem I Q (f b) s) m s) :
    SafeOk sem I Q (m >>= f) s := by
  refine safe_bind (Safe.weaken (fun _ hI => hI) (fun r s hI hr => ?_) h)
  cases r with
  | error e => exact ⟨hI, fun a h => by cases h⟩
  | ok b => exact hr b rfl

theorem SafeOk.mono {Q' : α → σ → Prop} {m : ExceptT ε (Prog Op Ans) α}
    (hI : ∀ s, I s → J s) (hQ : ∀ a s, Q a s → Q' a s) (h : SafeOk sem I Q m s) :
    SafeOk sem J Q' m s :=
  Safe.weaken hI (fun _ _ _ hr a ha => hQ a _ (hr a ha)) h

end

/-! ### Over and over -/

/-- The states `p`, started over and over and stopped anywhere each time, can
leave. -/
def Restarts (sem : (e : Op) → σ → Ans e → σ → Prop) (p : Prog Op Ans α) : σ → σ → Prop :=
  Relation.ReflTransGen fun s s' => ∃ tr q, p.Seen sem Alone s tr q s'

variable {Q : α → σ → Prop} {p : Prog Op Ans α} {s s' : σ}

/-- **What a run keeps at every moment, any number of stopped runs keep.** -/
theorem Restarts.inv (hp : ∀ s, I s → p.Safe sem I Q s) (h₀ : I s)
    (h : Restarts sem p s s') : I s' := by
  induction h with
  | refl => exact h₀
  | tail _ hrun ih =>
      obtain ⟨tr, q, hq⟩ := hrun
      exact ((hp _ ih).seen hq).now

/-- A run that gets to the end, after any number that did not, returns what it
should. -/
theorem Restarts.returned (hp : ∀ s, I s → p.Safe sem I Q s) (h₀ : I s)
    (h : Restarts sem p s s') {tr : List (Performed σ Op Ans)} {a : α} {s'' : σ}
    (hr : p.Seen sem Alone s' tr (ret a) s'') : Q a s'' :=
  ((hp _ (h.inv hp h₀)).seen hr).2

end Prog

end Interleaving
