/-
AgentBlock/Knl/System.lean

Any number of handles over one database.

`Reaches calls db₀ p`: starting on the database `db₀`, calls of the kind
`calls` were made on live handles, any number of them in flight at once, and
the pool of them is now `p`.  Every result about interleavings is about every
such `p`.

Main results:

* `Reaches.inv` — what every change keeps, every reachable database has;
* `Reaches.returned` — a call that has returned took a path of its program
  over the database, the other calls' changes in between;
* `reopen_records` — a child that was allocated is there when it is resumed,
  unless it was ended.
-/
import AgentBlock.Knl.Outcomes

namespace AgentBlock.Knl

open Interleaving

/-- A call in flight over the database. -/
abbrev CallThread := Thread Database Call StoreOp StoreOp.Ans (Except KnlError Answer)

/-- The calls over one database. -/
abbrev KnlPool := Pool Database Call StoreOp StoreOp.Ans (Except KnlError Answer)

/-- The calls that may be made, on handles that are live. -/
def Made (calls : Call → Prop) (db : Database) (c : Call) : Prop := Live db c ∧ calls c

/-- The pools calls of one kind can reach. -/
def Reaches (calls : Call → Prop) (db₀ : Database) (p : KnlPool) : Prop :=
  Pool.Runs Sem body (Made calls) (Pool.start db₀) p

/-- One store operation of some call that may be made. -/
def Moves (calls : Call → Prop) : Database → Database → Prop := Env Sem (Made calls) Issues

variable {calls : Call → Prop} {db₀ db db' : Database} {p : KnlPool}

theorem made_governed (calls : Call → Prop) : Pool.Governed Sem body (Made calls) Issues :=
  governed calls

theorem Moves.change (h : Moves calls db db') :
    ∃ c, Live db c ∧ calls c ∧ Change c db db' := by
  obtain ⟨c, op, a, ⟨hl, hc⟩, hi, hsem⟩ := h
  exact ⟨c, hl, hc, change_of_sem hi hsem⟩

theorem Moves.grows (h : Moves calls db db') : db <+: db' := by
  obtain ⟨c, op, a, hm, hi, hsem⟩ := h
  exact hsem.appends

/-- **What every change keeps, every reachable database has.** -/
theorem Reaches.inv {I : Database → Prop}
    (hI : ∀ c db db', Live db c → calls c → Change c db db' → I db → I db') (h₀ : I db₀)
    (h : Reaches calls db₀ p) : I p.shared := by
  refine Pool.inv (made_governed calls) (fun db db' hm hi => ?_) h₀ h
  obtain ⟨c, hl, hc, hch⟩ := Moves.change hm
  exact hI c db db' hl hc hch hi

/-- The same, between two databases some calls lead from one to the other. -/
theorem others_inv {I : Database → Prop}
    (hI : ∀ c db db', Live db c → calls c → Change c db db' → I db → I db')
    (h : Others (Moves calls) db db') (h₀ : I db) : I db' := by
  induction h with
  | refl => exact h₀
  | tail _ hm ih =>
      obtain ⟨c, hl, hc, hch⟩ := Moves.change hm
      exact hI c _ _ hl hc hch ih

/-- A reachable database extends the one the run started on. -/
theorem Reaches.grows (h : Reaches calls db₀ p) : db₀ <+: p.shared :=
  others_grow (fun _ _ => Moves.grows) (Pool.reach (made_governed calls) h)

/-- **A call that has returned took a path of its program**, from a database
the run had reached. -/
theorem Reaches.returned (h : Reaches calls db₀ p) {t : CallThread} (ht : t ∈ p.threads)
    {r : Except KnlError Answer} (hr : t.rest = .ret r) :
    ∃ db, Others (Moves calls) db₀ db ∧ Made calls db t.call ∧
      Returned (Moves calls) (body t.call) db t.done r p.shared := by
  obtain ⟨db, hdb, hm, hs⟩ := Pool.thread_view (made_governed calls) h t ht
  rw [hr] at hs
  exact ⟨db, hdb, hm, hs⟩

/-- Everything a call performed lies between the first database and the last,
and was a change of that call. -/
theorem Reaches.performed (h : Reaches calls db₀ p) {t : CallThread} (ht : t ∈ p.threads) :
    ∀ d ∈ t.done, db₀ <+: d.before ∧ d.before <+: d.after ∧ d.after <+: p.shared := by
  obtain ⟨db, hdb, -, hs⟩ := Pool.thread_view (made_governed calls) h t ht
  intro d hd
  obtain ⟨h₁, h₂, h₃⟩ := (seen_grows (fun _ _ => Moves.grows) hs).2 d hd
  exact ⟨(others_grow (fun _ _ => Moves.grows) hdb).trans h₁, h₂, h₃⟩

/-- What every change keeps, every database a call found has; and what the
call made of it was one of its changes. -/
theorem Reaches.found {I : Database → Prop}
    (hI : ∀ c db db', Live db c → calls c → Change c db db' → I db → I db') (h₀ : I db₀)
    (h : Reaches calls db₀ p) {t : CallThread} (ht : t ∈ p.threads) :
    ∀ d ∈ t.done, I d.before ∧ Live d.before t.call ∧ Change t.call d.before d.after := by
  intro d hd
  obtain ⟨hR, ⟨hl, -⟩, hi, hsem⟩ := Pool.performed (made_governed calls) h t ht d hd
  exact ⟨others_inv hI hR h₀, hl, change_of_sem hi hsem⟩

/-- A store that does not fail, by the clock it reads. -/
def works (clock : Nat → Nat) (op : StoreOp) (db : Database) : op.Ans × Database :=
  exec clock db op

/-- The pool calls come to by taking turns in a given order. -/
abbrev played (answer : (op : StoreOp) → Database → op.Ans × Database)
    (ts : List (Pool.Turn Call)) (db : Database) : KnlPool :=
  Pool.turns answer body ts (Pool.start db)

/-- Each call is made on a live handle. -/
abbrev Playable (answer : (op : StoreOp) → Database → op.Ans × Database) (calls : Call → Prop)
    (ts : List (Pool.Turn Call)) (db : Database) : Prop :=
  Pool.TurnsAllowed answer body (Made calls) ts (Pool.start db)

theorem reaches_played {clock : Nat → Nat} {ts : List (Pool.Turn Call)}
    (h : Playable (works clock) calls ts db) : Reaches calls db (played (works clock) ts db) :=
  Pool.runs_turns (fun op db => Sem.done clock op db) h

/-- What the first operation of a call leaves, when it is made alone. -/
theorem played_first {answer : (op : StoreOp) → Database → op.Ans × Database} {c : Call}
    {op : StoreOp} {k : op.Ans → Prog StoreOp StoreOp.Ans (Except KnlError Answer)}
    (h : body c = .op op k) :
    (played answer [.call c, .perform 0] db).shared = (answer op db).2 := by
  simp [Pool.turns, Pool.turn, Pool.start, h]

/-! ### A child that was allocated -/

/-- What an allocation that was written is answered: the child, unless the
store fails or the child's stream was ended before the child was resumed. -/
def Reopened (db : Database) (childStream : String) (r : Except KnlError Answer) : Prop :=
  (∃ e : KnlError, e.isFault = true ∧ r = .error e) ∨
    (Ended (db.stream childStream) ∧ ∃ why, r = .error (.closed why)) ∨
    ∃ child, r = .ok (.session child)

theorem reopen_records {m : Minted} {childStream : String} {childStore : Store} {done : Done}
    {r : Except KnlError Answer} {o g : Current} (hstore : childStore.stream = childStream)
    (hd : db.stream childStream = [o, g]) (ho : o.kind = KIND_SESSION_OPENED)
    (hs : Returned (Moves calls) (reopen m childStream childStore) db done r db') :
    Reopened db' childStream r := by
  have hbetween := (seen_grows (fun _ _ => Moves.grows) hs).2
  obtain ⟨-, ⟨e, rfl, hf⟩ | ⟨opened, read, asked, -, -, rfl⟩⟩ := reopen_seen hs
  · cases hf with
    | failed he => exact Or.inl ⟨e, he, rfl⟩
    | noSession hmem hno =>
        -- the opening is in the log from the write on
        obtain ⟨more, hmore⟩ := Database.stream_grows (s := childStream) (hbetween _ hmem).1
        rw [hstore, ← hmore, hd] at hno
        simp [ho] at hno
    | @ended d hmem hend =>
        obtain ⟨ending, hin, hk⟩ := hend
        have hp : d.before.stream childStream <+: db'.stream childStream :=
          Database.stream_grows ((hbetween _ hmem).2.1.trans (hbetween _ hmem).2.2)
        exact Or.inr (Or.inl ⟨⟨ending, hp.subset (hstore ▸ hin), hk⟩, _, rfl⟩)
  · exact Or.inr (Or.inr ⟨_, rfl⟩)

/-- What a call appended to a stream. -/
def appended (s : String) (done : Done) : List Current :=
  done.flatMap fun d => (d.after.stream s).drop (d.before.stream s).length

theorem appended_quiet {s : String} {done : Done} (h : Quiet done) : appended s done = [] := by
  refine List.flatMap_eq_nil_iff.mpr fun d hd => ?_
  rw [h d hd, List.drop_length]

theorem appended_cons {s : String} {d : Performed Database StoreOp StoreOp.Ans} {done : Done}
    {new : List Current} (h : d.after.stream s = d.before.stream s ++ new) :
    appended s (d :: done) = new ++ appended s done := by
  simp [appended, h]

end AgentBlock.Knl
