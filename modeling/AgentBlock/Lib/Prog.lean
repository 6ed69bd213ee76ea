/-
AgentBlock/Lib/Prog.lean

Programs over an interface of operations, as trees: a program either returns,
or performs one operation and goes on with whatever it is answered.

Nothing here says what an operation does.  The interface is a type `Op` and,
for each operation, the type `Ans e` of the answers it may get; a program is
total on answers, so a statement about every path of the tree is a statement
about every behaviour of whatever answers it.

* `Prog.All φ` — every operation the program can issue satisfies `φ`;
* `Prog.Seen` — a path of a program over a shared state, which other parties
  are free to move between two operations.

An operation that was performed is remembered with the state it found and the
state it left (`Performed`).
-/
import Mathlib.Logic.Relation
import Mathlib.Tactic.Cases

namespace Interleaving

universe u v w x

/-- A program over the operations `Op`, returning an `α`. -/
inductive Prog (Op : Type u) (Ans : Op → Type v) (α : Type w) :
    Type (max u v w) where
  | ret (a : α) : Prog Op Ans α
  | op (e : Op) (k : Ans e → Prog Op Ans α) : Prog Op Ans α

/-- One operation that was performed: the state it found, the answer it got
and the state it left. -/
structure Performed (σ : Type x) (Op : Type u) (Ans : Op → Type v) where
  op : Op
  before : σ
  ans : Ans op
  after : σ

variable {Op : Type u} {Ans : Op → Type v} {α β : Type w} {σ : Type x}

namespace Prog

/-! ### The monad -/

/-- Run `p`, then go on with what it returned. -/
def bind : Prog Op Ans α → (α → Prog Op Ans β) → Prog Op Ans β
  | ret a, f => f a
  | op e k, f => op e fun a => (k a).bind f

instance : Monad (Prog Op Ans) where
  pure := ret
  bind := bind

/-- Perform one operation and return its answer. -/
def perform (e : Op) : Prog Op Ans (Ans e) := op e ret

@[simp] theorem pure_eq (a : α) : (pure a : Prog Op Ans α) = ret a := rfl

@[simp] theorem ret_bind (a : α) (f : α → Prog Op Ans β) :
    (ret a >>= f) = f a := rfl

@[simp] theorem op_bind (e : Op) (k : Ans e → Prog Op Ans α)
    (f : α → Prog Op Ans β) :
    (op e k >>= f) = op e fun a => k a >>= f := rfl

/-! ### Every operation of a program -/

/-- Every operation `p` can issue, whatever it was answered before, is a
`φ`. -/
def All (φ : Op → Prop) : Prog Op Ans α → Prop
  | ret _ => True
  | op e k => φ e ∧ ∀ a, (k a).All φ

@[simp] theorem all_ret (φ : Op → Prop) (a : α) :
    (ret a : Prog Op Ans α).All φ := trivial

@[simp] theorem all_op {φ : Op → Prop} {e : Op} {k : Ans e → Prog Op Ans α} :
    (op e k).All φ ↔ φ e ∧ ∀ a, (k a).All φ := Iff.rfl

theorem All.bind {φ : Op → Prop} {p : Prog Op Ans α}
    {f : α → Prog Op Ans β} (hp : p.All φ) (hf : ∀ a, (f a).All φ) :
    (p >>= f).All φ := by
  induction p with
  | ret a => exact hf a
  | op e k ih => exact ⟨hp.1, fun a => ih a (hp.2 a)⟩

theorem All.mono {φ ψ : Op → Prop} {p : Prog Op Ans α} (hp : p.All φ)
    (h : ∀ e, φ e → ψ e) : p.All ψ := by
  induction p with
  | ret a => trivial
  | op e k ih => exact ⟨h e hp.1, fun a => ih a (hp.2 a)⟩

/-! ### Paths -/

/-- `Seen sem R p s tr q s'`: starting on the shared state `s`, the program
`p` performed `tr`, `q` is left of it, and the state is now `s'`.  Between two
of its operations other parties may have taken any number of `R` steps. -/
inductive Seen (sem : (e : Op) → σ → Ans e → σ → Prop) (R : σ → σ → Prop) :
    Prog Op Ans α → σ → List (Performed σ Op Ans) → Prog Op Ans α → σ → Prop
  | refl (p : Prog Op Ans α) (s : σ) : Seen sem R p s [] p s
  | other {p q : Prog Op Ans α} {s s' s'' : σ} {tr : List (Performed σ Op Ans)} :
      Seen sem R p s tr q s' → R s' s'' → Seen sem R p s tr q s''
  | own {p : Prog Op Ans α} {s s' s'' : σ} {tr : List (Performed σ Op Ans)} {e : Op}
      {k : Ans e → Prog Op Ans α} {a : Ans e} :
      Seen sem R p s tr (op e k) s' → sem e s' a s'' →
      Seen sem R p s (tr ++ [⟨e, s', a, s''⟩]) (k a) s''

section Seen

variable {sem : (e : Op) → σ → Ans e → σ → Prop} {R : σ → σ → Prop}

theorem Seen.all {φ : Op → Prop} {p q : Prog Op Ans α} {s s' : σ}
    {tr : List (Performed σ Op Ans)} (h : Seen sem R p s tr q s')
    (hp : p.All φ) : q.All φ := by
  induction h with
  | refl => exact hp
  | other _ _ ih => exact ih
  | own _ _ ih => exact ih.2 _

/-- A program that has returned only waits. -/
theorem Seen.of_ret {a : α} {q : Prog Op Ans α} {s s' : σ}
    {tr : List (Performed σ Op Ans)} (h : Seen sem R (ret a) s tr q s') :
    tr = [] ∧ q = ret a ∧ Relation.ReflTransGen R s s' := by
  induction h with
  | refl => exact ⟨rfl, rfl, .refl⟩
  | other _ hR ih =>
      obtain ⟨htr, hq, hs⟩ := ih
      exact ⟨htr, hq, hs.tail hR⟩
  | own _ _ ih => cases ih.2.1

/-- A path from an operation over a shared state: it has not been performed
yet, or the others moved the state, it was performed there, and the rest is a
path of its continuation. -/
theorem Seen.of_op {e : Op} {k : Ans e → Prog Op Ans α} {q : Prog Op Ans α}
    {s s' : σ} {tr : List (Performed σ Op Ans)} (h : Seen sem R (op e k) s tr q s') :
    (tr = [] ∧ q = op e k ∧ Relation.ReflTransGen R s s') ∨
      ∃ a tr' s₁ s₂, tr = ⟨e, s₁, a, s₂⟩ :: tr' ∧ Relation.ReflTransGen R s s₁ ∧
        sem e s₁ a s₂ ∧ Seen sem R (k a) s₂ tr' q s' := by
  induction h with
  | refl => exact Or.inl ⟨rfl, rfl, .refl⟩
  | other _ hR ih =>
      rcases ih with ⟨htr, hq, hs⟩ | ⟨a, tr', s₁, s₂, htr, h₁, h₂, h₃⟩
      · exact Or.inl ⟨htr, hq, hs.tail hR⟩
      · exact Or.inr ⟨a, tr', s₁, s₂, htr, h₁, h₂, h₃.other hR⟩
  | own _ hsem ih =>
      rcases ih with ⟨rfl, hq, hs⟩ | ⟨a, tr', s₁, s₂, rfl, h₁, h₂, h₃⟩
      · cases hq
        exact Or.inr ⟨_, [], _, _, rfl, hs, hsem, Seen.refl _ _⟩
      · exact Or.inr ⟨a, tr' ++ [⟨_, _, _, _⟩], s₁, s₂, rfl, h₁, h₂, h₃.own hsem⟩

/-- Where every operation, and every step of the others, moves the state up
some order, so does the whole path, and each operation lies in between. -/
theorem Seen.between {le : σ → σ → Prop} (hrefl : ∀ s, le s s)
    (htrans : ∀ s t u, le s t → le t u → le s u) (hR : ∀ s s', R s s' → le s s')
    (hsem : ∀ e s a s', sem e s a s' → le s s') {p q : Prog Op Ans α} {s s' : σ}
    {tr : List (Performed σ Op Ans)} (h : Seen sem R p s tr q s') :
    le s s' ∧ ∀ d ∈ tr, le s d.before ∧ le d.before d.after ∧ le d.after s' := by
  induction h with
  | refl => exact ⟨hrefl _, fun d hd => absurd hd List.not_mem_nil⟩
  | other _ hstep ih =>
      exact ⟨htrans _ _ _ ih.1 (hR _ _ hstep), fun d hd =>
        ⟨(ih.2 d hd).1, (ih.2 d hd).2.1, htrans _ _ _ (ih.2 d hd).2.2 (hR _ _ hstep)⟩⟩
  | own _ hop ih =>
      have hle := hsem _ _ _ _ hop
      refine ⟨htrans _ _ _ ih.1 hle, fun d hd => ?_⟩
      rcases List.mem_append.mp hd with hd | hd
      · exact ⟨(ih.2 d hd).1, (ih.2 d hd).2.1, htrans _ _ _ (ih.2 d hd).2.2 hle⟩
      · obtain rfl := List.mem_singleton.mp hd
        exact ⟨ih.1, hle, hrefl _⟩

end Seen

/-! ### Guards -/

/-- Nobody else moves the state. -/
def Alone : σ → σ → Prop := fun _ _ => False

/-- Every operation `p` performs from here on is performed where its guard
holds, and what it returns is returned where `Q` does. -/
def Guarded (sem : (e : Op) → σ → Ans e → σ → Prop) (G : σ → Op → Prop)
    (Q : α → σ → Prop) : Prog Op Ans α → σ → Prop
  | ret a, s => Q a s
  | op e k, s => G s e ∧ ∀ a s', sem e s a s' → (k a).Guarded sem G Q s'

section Guarded

variable {sem : (e : Op) → σ → Ans e → σ → Prop} {G G' : σ → Op → Prop}
  {Q Q' : α → σ → Prop} {p q : Prog Op Ans α} {s s' : σ}

/-- A sequence is guarded where its first half is and ends where the second
half is. -/
theorem guarded_bind {f : β → Prog Op Ans α} {p : Prog Op Ans β}
    (h : p.Guarded sem G (fun b s => (f b).Guarded sem G Q s) s) :
    (p >>= f).Guarded sem G Q s := by
  induction p generalizing s with
  | ret b => exact h
  | op e k ih => exact ⟨h.1, fun a s' hs => ih a (h.2 a s' hs)⟩

theorem Guarded.mono (hG : ∀ s e, G s e → G' s e) (hQ : ∀ a s, Q a s → Q' a s)
    (h : p.Guarded sem G Q s) : p.Guarded sem G' Q' s := by
  induction p generalizing s with
  | ret a => exact hQ _ _ h
  | op e k ih => exact ⟨hG _ _ h.1, fun a s' hs => ih a (h.2 a s' hs)⟩

/-- **What is guarded is guarded on every path.** -/
theorem Guarded.seen {tr : List (Performed σ Op Ans)} (h : p.Guarded sem G Q s)
    (hp : p.Seen sem Alone s tr q s') :
    (∀ d ∈ tr, G d.before d.op) ∧ q.Guarded sem G Q s' := by
  induction hp with
  | refl => exact ⟨fun d hd => absurd hd List.not_mem_nil, h⟩
  | other _ hR => exact hR.elim
  | own _ hsem ih =>
      obtain ⟨htr, hG, hk⟩ := ih h
      refine ⟨fun d hd => ?_, hk _ _ hsem⟩
      rcases List.mem_append.mp hd with hd | hd
      · exact htr d hd
      · obtain rfl := List.mem_singleton.mp hd
        exact hG

/-- What an operation keeps where its guard holds, a guarded path keeps. -/
theorem Guarded.keeps {I : σ → Prop} {tr : List (Performed σ Op Ans)}
    (hI : ∀ e s a s', G s e → sem e s a s' → I s → I s') (h : p.Guarded sem G Q s)
    (hp : p.Seen sem Alone s tr q s') (hs : I s) : I s' := by
  induction hp with
  | refl => exact hs
  | other _ hR => exact hR.elim
  | own hp hsem ih => exact hI _ _ _ _ (h.seen hp).2.1 hsem (ih h hs)

end Guarded

/-! ### A program on its own -/

/-- Run `p` with nobody else about: `answer` says what each operation is
answered and what it does to the state. -/
def run (answer : (e : Op) → σ → Ans e × σ) : Prog Op Ans α → σ → α × σ
  | ret a, s => (a, s)
  | op e k, s => (k (answer e s).1).run answer (answer e s).2

@[simp] theorem run_ret (answer : (e : Op) → σ → Ans e × σ) (a : α) (s : σ) :
    (ret a : Prog Op Ans α).run answer s = (a, s) := rfl

@[simp] theorem run_op (answer : (e : Op) → σ → Ans e × σ) (e : Op)
    (k : Ans e → Prog Op Ans α) (s : σ) :
    (op e k).run answer s = (k (answer e s).1).run answer (answer e s).2 := rfl

theorem run_bind (answer : (e : Op) → σ → Ans e × σ) (p : Prog Op Ans α)
    (f : α → Prog Op Ans β) (s : σ) :
    (p >>= f).run answer s = (f (p.run answer s).1).run answer (p.run answer s).2 := by
  induction p generalizing s with
  | ret a => rfl
  | op e k ih => exact ih _ _

/-- A run on its own is a path. -/
theorem seen_run {sem : (e : Op) → σ → Ans e → σ → Prop} {R : σ → σ → Prop}
    {answer : (e : Op) → σ → Ans e × σ} (h : ∀ e s, sem e s (answer e s).1 (answer e s).2)
    (p : Prog Op Ans α) (s : σ) :
    ∃ tr, p.Seen sem R s tr (ret (p.run answer s).1) (p.run answer s).2 := by
  have hpath : ∀ (q : Prog Op Ans α) s' tr, p.Seen sem R s tr q s' →
      ∃ tr', p.Seen sem R s tr' (ret (q.run answer s').1) (q.run answer s').2 := by
    intro q
    induction q with
    | ret a => exact fun s' tr hq => ⟨tr, hq⟩
    | op e k ih => exact fun s' tr hq => ih _ _ _ (hq.own (h e s'))
  exact hpath p s [] (.refl p s)

end Prog

end Interleaving
