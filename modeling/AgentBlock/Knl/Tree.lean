/-
AgentBlock/Knl/Tree.lean

A tree of sessions: parents, children and their endings.

A child is written twice, in one transaction: its opening names its parent and
a reservation of the parent names it.  The two meet an ending in transactions
too: an allocation looks for the parent's ending before it writes, and a close
lists the children it finds in the transaction that records it.

The opening names the parent by the id of the handle, the reservation and the
close by its stream.  The two are one where the handle has adopted its stream,
as those the bridge hands out have; an opening on a store alone mints an id.

Main results:

* `Timely.change` — nothing is allocated after its parent's ending;
* `Matched.change` — an opening that names a parent is its stream's first
  event, and one reservation of the parent pays for it;
* `children_and_endings` — both of every run on handles that have adopted their
  streams, and what each close lists;
* `minted_parent_is_no_stream` — a child of a handle that has not names no
  stream.
-/
import AgentBlock.Knl.Amounts

namespace AgentBlock.Knl

open Interleaving

/-! ### Who names whom -/

/-- The parent an opening names. -/
def openedFrom (e : Current) : Option String :=
  if e.kind = KIND_SESSION_OPENED then stringField e FIELD_PARENT else none

/-- The child a reservation names. -/
def reservedFor (e : Current) : Option String :=
  if e.kind = KIND_BUDGET_RESERVED then stringField e FIELD_CHILD else none

/-- An event that names neither. -/
def Plain (e : Current) : Prop := openedFrom e = none ∧ reservedFor e = none

theorem openedFrom_of_view {e : Current} {v : View} (h : view e = v) :
    openedFrom e = if v.kind = KIND_SESSION_OPENED then v.parent else none := by
  rw [openedFrom, kind_of_view h, parent_of_view h]

theorem reservedFor_of_view {e : Current} {v : View} (h : view e = v) :
    reservedFor e = if v.kind = KIND_BUDGET_RESERVED then v.child else none := by
  rw [reservedFor, kind_of_view h, child_of_view h]

/-- An event read back with no names is plain, and so is one of a kind that
carries none. -/
theorem plain_of_view {e : Current} {v : View} (h : view e = v)
    (ho : v.kind = KIND_SESSION_OPENED → v.parent = none)
    (hr : v.kind = KIND_BUDGET_RESERVED → v.child = none) : Plain e := by
  refine ⟨?_, ?_⟩
  · rw [openedFrom_of_view h]
    split
    · exact ho ‹_›
    · rfl
  · rw [reservedFor_of_view h]
    split
    · exact hr ‹_›
    · rfl

theorem plain_of_caller {e : Current} (h : isKernelOnly e.kind = false) : Plain e := by
  refine ⟨if_neg fun hk => ?_, if_neg fun hk => ?_⟩
  all_goals
    rw [hk] at h
    exact absurd h (by decide)

/-- **Every change but an allocation adds plain events**: what plain rows and
allocations keep, every change keeps. -/
theorem tree_change {I : Database → Prop} {c : Call} {db db' : Database} (hid : c.Adopted)
    (hlive : Live db c) (hc : Change c db db')
    (hrow : ∀ db t e, Plain e → I db → I (db ++ [⟨t, e⟩]))
    (halloc : ∀ s plan, plan.parent = s → plan.child ≠ s → Covers db s plan.child plan.amount →
      Nonempty (Allocated db db' s plan) → I db → I db')
    (h : I db) : I db' := by
  cases hc with
  | none => exact h
  | @opened m owner grant labels store db ev gv _ ho hg =>
      have h₁ := hrow _ store.stream _ (plain_of_view ho.1 (fun _ => rfl) fun _ => rfl) h
      exact opened_rows hg h₁ fun g e _ hv =>
        hrow _ _ _ (plain_of_view hv.1 (fun _ => rfl) fun _ => rfl) h₁
  | granted _ _ _ hv => exact hrow _ _ _ (plain_of_view hv.1 (fun _ => rfl) fun _ => rfl) h
  | noted hk => exact hrow _ _ _ (plain_of_caller hk) h
  | reserved _ _ _ hv | spent _ _ hv =>
      exact hrow _ _ _ (plain_of_view hv (fun _ => rfl) fun _ => rfl) h
  | refused _ _ _ _ hv =>
      exact hrow _ _ _ (plain_of_view hv (fun _ => rfl) fun hk => absurd hk (by simp)) h
  | @allocated hd m childScope childStream owner allocation labels childStore db db' _ hcov hall =>
      have hne : childStream ≠ hd.store.stream := fun heq => hlive hd rfl (heq ▸ hcov.1)
      exact halloc hd.store.stream _ (hid hd rfl) hne hcov ⟨hall⟩ h
  | closed hv | closedDetached hv =>
      exact hrow _ _ _ (plain_of_view hv (fun _ => rfl) fun _ => rfl) h

/-! ### Nothing is allocated after an ending -/

/-- When a reservation for a child landed, or the child's opening did, the
parent's stream carried no ending. -/
def Timely (db : Database) : Prop :=
  ∀ (before : Database) row after, db = before ++ row :: after →
    (∀ c, reservedFor row.event = some c → ¬ Ended (before.stream row.stream)) ∧
      ∀ par, openedFrom row.event = some par → ¬ Ended (before.stream par)

section Timely

variable {db db' : Database} {t : String} {e : Current}

theorem Timely.row (h : Timely db)
    (hr : ∀ c, reservedFor e = some c → ¬ Ended (db.stream t))
    (ho : ∀ par, openedFrom e = some par → ¬ Ended (db.stream par)) :
    Timely (db ++ [⟨t, e⟩]) := by
  intro before row after heq
  rcases List.eq_nil_or_concat after with rfl | ⟨rest, last, rfl⟩
  · obtain ⟨rfl, hlast⟩ := List.append_inj' heq rfl
    obtain rfl := List.singleton_inj.mp hlast
    exact ⟨hr, ho⟩
  · rw [List.concat_eq_append, ← List.cons_append, ← List.append_assoc] at heq
    exact h before row rest (List.append_inj' heq rfl).1

/-- **Nothing is allocated after its parent's ending.** -/
theorem Timely.change {c : Call} (hid : c.Adopted) (hlive : Live db c) (hc : Change c db db')
    (h : Timely db) : Timely db' := by
  refine tree_change hid hlive hc (fun db t e hp h => ?_) (fun s plan hpar hne hcov hall h => ?_) h
  · exact h.row (by simp [hp.2]) (by simp [hp.1])
  · obtain ⟨hall⟩ := hall
    obtain ⟨own, opened, granted, hown, hopening, hgranted, -, rfl⟩ := hall
    -- the reservation is no ending, so the child's opening meets none either
    have h₁ : Timely (db ++ [⟨s, own⟩]) :=
      h.row (fun _ _ => hcov.2.1) (by simp [openedFrom_of_view hown])
    have hend : ¬ Ended (Database.stream (db ++ [⟨s, own⟩]) s) :=
      not_ended_row hcov.2.1 fun _ => by rw [kind_of_view hown]; simp
    have h₂ : Timely (db ++ [⟨s, own⟩] ++ [⟨plan.child, opened⟩]) := by
      refine h₁.row (by simp [reservedFor_of_view hopening.1]) fun par hpar' => ?_
      rw [openedFrom_of_view hopening.1, if_pos rfl] at hpar'
      cases hpar'
      exact hpar ▸ hend
    have h₃ := h₂.row (t := plan.child) (e := granted) (by simp [reservedFor_of_view hgranted])
      (by simp [openedFrom_of_view hgranted])
    simpa using h₃

end Timely

/-! ### An opening and the reservation that pays for it -/

/-- The reservations of `par` for the child `c`. -/
def reservationsFor (db : Database) (par c : String) : List Current :=
  (db.stream par).filter fun e => reservedFor e = some c

/-- The first grant of a log. -/
def firstGrant (events : List Current) : Option Current :=
  events.find? fun e => e.kind = KIND_BUDGET_GRANTED

/-- The opening `o` of the stream `c` names `par`: it is the stream's first
event and its only opening that names a parent, and one reservation of `par`
is for `c`, of the amount `c` was granted first. -/
structure Family (db : Database) (c par : String) (o : Current) : Prop where
  first : ∃ rest, db.stream c = o :: rest ∧ ∀ e ∈ rest, openedFrom e = none
  paid : ∃ r g, reservationsFor db par c = [r] ∧ firstGrant (db.stream c) = some g ∧
    rawAmount g = rawAmount r

/-- Openings and reservations match: a reservation names a stream that has
events, and an opening that names a parent is one of a family. -/
structure Matched (db : Database) : Prop where
  named : ∀ row ∈ db, ∀ c, reservedFor row.event = some c → db.stream c ≠ []
  family : ∀ c, ∀ o ∈ db.stream c, ∀ par, openedFrom o = some par → Family db c par o

section Matched

variable {db db' : Database} {s t : String} {e : Current}

theorem reservationsFor_row (db : Database) (t par c : String) (e : Current)
    (h : t = par → reservedFor e ≠ some c) :
    reservationsFor (db ++ [⟨t, e⟩]) par c = reservationsFor db par c := by
  unfold reservationsFor
  rw [stream_concat, List.filter_append]
  split
  · simp [h ‹_›]
  · simp

/-- One more row leaves a family as it is, if it is no opening of the child
and no reservation for it. -/
theorem Family.row {c par : String} {o : Current} (h : Family db c par o)
    (ho : t = c → openedFrom e = none) (hr : t = par → reservedFor e ≠ some c) :
    Family (db ++ [⟨t, e⟩]) c par o := by
  obtain ⟨⟨rest, hrest, hnone⟩, r, g, hres, hg, ha⟩ := h
  refine ⟨⟨rest ++ if t = c then [e] else [], ?_, ?_⟩, r, g, ?_, ?_, ha⟩
  · rw [stream_concat, hrest, List.cons_append]
  · intro e' he'
    rcases List.mem_append.mp he' with he' | he'
    · exact hnone e' he'
    · split at he'
      · obtain rfl := List.mem_singleton.mp he'
        exact ho ‹_›
      · cases he'
  · rw [reservationsFor_row db t par c e hr, hres]
  · rw [firstGrant, stream_concat, List.find?_append]
    unfold firstGrant at hg
    rw [hg]
    rfl

theorem stream_ne_nil_row (h : db.stream s ≠ []) : Database.stream (db ++ [⟨t, e⟩]) s ≠ [] := by
  rw [stream_concat]
  exact List.append_ne_nil_of_left_ne_nil h _

theorem Matched.plain (h : Matched db) (hp : Plain e) : Matched (db ++ [⟨t, e⟩]) where
  named := by
    intro row hrow c hc
    rcases List.mem_append.mp hrow with hrow | hrow
    · exact stream_ne_nil_row (h.named row hrow c hc)
    · obtain rfl := List.mem_singleton.mp hrow
      rw [hp.2] at hc
      cases hc
  family := by
    intro c o ho par hpar
    rw [stream_concat] at ho
    rcases List.mem_append.mp ho with ho | ho
    · exact (h.family c o ho par hpar).row (fun _ => hp.1) fun _ => by rw [hp.2]; simp
    · split at ho
      · obtain rfl := List.mem_singleton.mp ho
        rw [hp.1] at hpar
        cases hpar
      · cases ho

/-- Nothing is reserved for a stream with no events. -/
theorem Matched.reservationsFor_empty (h : Matched db) {par c : String}
    (hc : db.stream c = []) : reservationsFor db par c = [] := by
  refine List.filter_eq_nil_iff.mpr fun e he hr => ?_
  exact h.named ⟨par, e⟩ (Database.mem_stream.mp he) c (of_decide_eq_true hr) hc

/-- **An allocation starts a family** and leaves every other as it is. -/
theorem Matched.allocated {plan : AllocationPlan} (hall : Allocated db db' s plan)
    (hpar : plan.parent = s) (hne : plan.child ≠ s) (hempty : db.stream plan.child = [])
    (h : Matched db) : Matched db' := by
  obtain ⟨own, opened, granted, hown, hopening, hgranted, htag, hrows⟩ := hall
  have hparent : db'.stream s = db.stream s ++ [own] :=
    Allocated.stream_own ⟨own, opened, granted, hown, hopening, hgranted, htag, hrows⟩ hne
  have hchild : db'.stream plan.child = [opened, granted] :=
    (Allocated.stream_child ⟨own, opened, granted, hown, hopening, hgranted, htag, hrows⟩
      hne).trans (congrArg (· ++ _) hempty)
  have hr : reservedFor own = some plan.child := by simp [reservedFor_of_view hown]
  have ho : openedFrom opened = some s := by simp [openedFrom_of_view hopening.1, hpar]
  have hown₀ : openedFrom own = none := by simp [openedFrom_of_view hown]
  have hopened₀ : reservedFor opened = none := by simp [reservedFor_of_view hopening.1]
  have hplain : Plain granted :=
    plain_of_view hgranted (fun hk => absurd hk (by simp)) fun _ => rfl
  refine ⟨fun row hrow c hc => ?_, fun c o hmem par hc => ?_⟩
  · rw [hrows] at hrow
    have hp : db.stream c <+: db'.stream c :=
      Database.stream_grows (hrows ▸ List.prefix_append _ _)
    simp only [List.mem_append, List.mem_cons, List.not_mem_nil, or_false] at hrow
    rcases hrow with hrow | rfl | rfl | rfl
    · exact fun hnil => h.named row hrow c hc (List.prefix_nil.mp (hnil ▸ hp))
    · rw [hr] at hc
      cases hc
      simp [hchild]
    · simp [hopened₀] at hc
    · simp [hplain.2] at hc
  by_cases hcc : c = plan.child
  · -- the child's stream has just the two events of the allocation
    subst hcc
    rw [hchild] at hmem
    simp only [List.mem_cons, List.not_mem_nil, or_false] at hmem
    rcases hmem with rfl | rfl
    · rw [ho] at hc
      cases hc
      refine ⟨⟨[granted], hchild, by simpa using hplain.1⟩, own, granted, ?_, ?_, ?_⟩
      · have hnone : reservationsFor db s plan.child = [] := h.reservationsFor_empty hempty
        unfold reservationsFor at hnone ⊢
        rw [hparent, List.filter_append, hnone]
        simp [hr]
      · have hk₁ := kind_of_view hopening.1
        have hk₂ := kind_of_view hgranted
        simp [firstGrant, hchild, hk₁, hk₂]
      · rw [amount_of_view hgranted, amount_of_view hown]
    · simp [hplain.1] at hc
  · have hrows' : db' = db ++ [⟨s, own⟩] ++ [⟨plan.child, opened⟩] ++ [⟨plan.child, granted⟩] := by
      rw [hrows]
      simp
    have hmem₀ : o ∈ db.stream c := by
      rw [hrows'] at hmem
      simp only [stream_concat, if_neg (Ne.symm hcc), List.append_nil] at hmem
      rcases List.mem_append.mp hmem with hmem | hmem
      · exact hmem
      · split at hmem
        · obtain rfl := List.mem_singleton.mp hmem
          rw [hown₀] at hc
          cases hc
        · cases hmem
    rw [hrows']
    -- another family: none of the three events is of it
    have hf := h.family c o hmem₀ par hc
    refine ((hf.row (fun _ => hown₀) fun _ => ?_).row (fun heq => absurd heq.symm hcc)
      fun _ => ?_).row (fun _ => hplain.1) fun _ => ?_
    · rw [hr]
      exact fun heq => hcc (Option.some.inj heq).symm
    · simp [hopened₀]
    · simp [hplain.2]

/-- **Openings and reservations match**, whatever a call does. -/
theorem Matched.change {c : Call} (hid : c.Adopted) (hlive : Live db c) (hc : Change c db db')
    (h : Matched db) : Matched db' :=
  tree_change hid hlive hc (fun _ _ _ hp h => h.plain hp)
    (fun _ _ hpar hne hcov ⟨hall⟩ h => h.allocated hall hpar hne hcov.1) h

end Matched

/-! ### The children a close lists -/

/-- When the child `c` was opened. -/
def openedAt (db : Database) (c : String) : Nat :=
  ((db.stream c).find? fun e => (openedFrom e).isSome).elim 0 Current.epochMs

/-- The list of the children of `s` that had not ended: each stream that was
opened from `s` and carries no ending, once, by the time it opened and then by
its stream. -/
structure ListsChildren (db : Database) (s : String) (children : List String) : Prop where
  mem : ∀ c, c ∈ children ↔
    (∃ o ∈ db.stream c, openedFrom o = some s) ∧ ¬ Ended (db.stream c)
  nodup : children.Nodup
  sorted : children.Pairwise fun a b => toLex (openedAt db a, a) ≤ toLex (openedAt db b, b)

section Children

variable {db : Database} {s c : String}

theorem openedFrom_eq_some {e : Current} : openedFrom e = some s ↔
    e.kind = childScan.opened ∧ stringField e childScan.parentField = some s := by
  unfold openedFrom childScan
  split <;> simp [*]

/-- A stream has at most one opening that names a parent. -/
theorem Matched.countP_opened (h : Matched db) (c : String) :
    (db.stream c).countP (fun e => (openedFrom e).isSome) ≤ 1 := by
  by_cases hex : ∃ o ∈ db.stream c, (openedFrom o).isSome
  · obtain ⟨o, ho, hsome⟩ := hex
    obtain ⟨par, hpar⟩ := Option.isSome_iff_exists.mp hsome
    obtain ⟨rest, hrest, hnone⟩ := (h.family c o ho par hpar).first
    have hzero : rest.countP (fun e => (openedFrom e).isSome) = 0 :=
      List.countP_eq_zero.mpr fun e he => by simp [hnone e he]
    rw [hrest, List.countP_cons, hzero]
    split <;> omega
  · push Not at hex
    rw [List.countP_eq_zero.mpr fun e he => by simpa using hex e he]
    omega

/-- The rows the scan finds are openings, one for each stream. -/
theorem Matched.openChildRows_nodup (h : Matched db) (s : String) :
    ((openChildRows db s childScan).map Row.stream).Nodup := by
  refine List.nodup_iff_count_le_one.mpr fun c => le_trans ?_ (h.countP_opened c)
  rw [List.count_eq_countP, List.countP_map, openChildRows, List.countP_filter, Database.stream,
    List.countP_map, List.countP_filter]
  refine List.countP_mono_left fun row _ hrow => ?_
  simp only [Function.comp_apply, beq_iff_eq, Bool.and_eq_true, decide_eq_true_eq] at hrow ⊢
  have ho : openedFrom row.event = some s := openedFrom_eq_some.mpr ⟨hrow.2.1, hrow.2.2.1⟩
  exact ⟨by rw [ho]; rfl, hrow.1⟩

theorem Matched.childKey_eq (h : Matched db) {row : Row} (hrow : row ∈ openChildRows db s childScan) :
    childKey row = toLex (openedAt db row.stream, row.stream) := by
  simp only [openChildRows, List.mem_filter, decide_eq_true_eq] at hrow
  have ho : openedFrom row.event = some s := openedFrom_eq_some.mpr ⟨hrow.2.1, hrow.2.2.1⟩
  obtain ⟨rest, hrest, -⟩ :=
    (h.family row.stream row.event (Database.mem_stream.mpr hrow.1) s ho).first
  simp [childKey, openedAt, hrest, ho]

/-- **The scan of a close lists the children that had not ended.** -/
theorem Matched.listsChildren (h : Matched db) (s : String) :
    ListsChildren db s (openChildrenIn db s childScan) where
  mem := fun c => by
    rw [mem_openChildrenIn]
    simp only [openedFrom_eq_some]
    rfl
  nodup := by
    refine (List.Perm.nodup_iff ?_).mpr (h.openChildRows_nodup s)
    exact (List.perm_insertionSort _ _).map _
  sorted := by
    have : Std.Total fun a b : Row => childKey a ≤ childKey b := ⟨fun a b => le_total _ _⟩
    have : IsTrans Row fun a b => childKey a ≤ childKey b := ⟨fun a b c => le_trans⟩
    refine List.pairwise_map.mpr ((List.pairwise_insertionSort
      (fun a b : Row => childKey a ≤ childKey b) _).imp_of_mem fun {a b} ha hb hab => ?_)
    rw [List.mem_insertionSort] at ha hb
    rwa [h.childKey_eq ha, h.childKey_eq hb] at hab

end Children

/-! ### Runs -/

/-- What a close that records its boundary lists: the children of its session,
and no list at all when there are none. -/
def RecordsChildren (t : CallThread) : Prop :=
  ∀ h reason detail, t.call = .closeWith h reason detail → ∀ d ∈ t.done,
    d.after = d.before ∨
    ∃ ending children, d.after = d.before ++ [⟨h.store.stream, ending⟩] ∧
      ending.kind = KIND_SESSION_CLOSED ∧ ListsChildren d.before h.store.stream children ∧
      dataField ending FIELD_OPEN_CHILDREN =
        if children = [] then none else some (.arr (children.map Json.str))

theorem matched_nil : Matched [] where
  named := fun _ h => absurd h List.not_mem_nil
  family := fun _ _ h => absurd h List.not_mem_nil

theorem timely_nil : Timely [] := fun before row after h => by simp at h

section Runs

variable {calls : Call → Prop} {p : KnlPool}

/-- **Children and endings agree** in every database that calls on handles that
have adopted their streams can reach: nothing is allocated after its parent's
ending, each opening that names a parent is its stream's first event and is
paid for by one reservation, and each close lists the children of its session. -/
theorem children_and_endings (hcalls : ∀ c, calls c → c.Adopted) (hrun : Reaches calls [] p) :
    Timely p.shared ∧ Matched p.shared ∧ ∀ t ∈ p.threads, RecordsChildren t := by
  refine ⟨hrun.inv (fun c _ _ hl hc hch => Timely.change (hcalls c hc) hl hch) timely_nil,
    hrun.inv (fun c _ _ hl hc hch => Matched.change (hcalls c hc) hl hch) matched_nil,
    fun t ht h reason detail hcall d hd => ?_⟩
  obtain ⟨hm, -, hch⟩ :=
    hrun.found (fun c _ _ hl hc hch => Matched.change (hcalls c hc) hl hch) matched_nil ht d hd
  rw [hcall] at hch
  generalize hdb : d.after = db' at hch
  cases hch with
  | none => exact Or.inl rfl
  | closed hv hchildren =>
      exact Or.inr ⟨_, _, rfl, kind_of_view hv, hm.listsChildren h.store.stream, hchildren⟩
  | granted hg => cases hg
  | refused hm => cases hm

end Runs

/-- The root closes over the child it opened, and lists it. -/
theorem children_and_endings_root :
    ∃ p, Reaches Call.Adopted [] p ∧ Matched p.shared ∧
      ∃ ending ∈ p.shared.stream "root", dataField ending FIELD_OPEN_CHILDREN =
        some (.arr [.str "child"]) :=
  have h : Playable (works still) Call.Adopted [.call openRoot, .perform 0, .call openFour,
      .perform 1, .call (.closeWith rootHandle none none), .perform 2] [] :=
    ⟨⟨by decide, by decide⟩, ⟨by decide, by decide⟩, ⟨by decide, by decide⟩, trivial⟩
  ⟨_, reaches_played h, (children_and_endings (fun _ h => h) (reaches_played h)).2.1, _,
    List.mem_cons_of_mem _ (List.mem_cons_of_mem _ (List.mem_cons_of_mem _ List.mem_cons_self)),
    rfl⟩

/-- The handle that an opening of `root` returns, of the id it minted. -/
def mintedHandle : Session := { rootHandle with id := "minted" }

/-- A child of a handle as its opening returned it: the child's opening names
the minted id, and no log of that name reserved anything for it. -/
theorem minted_parent_is_no_stream : ¬ ∀ (calls : Call → Prop) (p : KnlPool),
    Reaches calls [] p →
      Timely p.shared ∧ Matched p.shared ∧ ∀ t ∈ p.threads, RecordsChildren t := by
  intro hall
  have hrun : Playable (works still) (fun _ => True)
      [.call (.openOn ⟨"minted", "scope"⟩ "owner" (some ⟨10, none, none⟩) none ⟨some "db", "root"⟩),
        .perform 0, .call (.openChild mintedHandle ⟨"id", "minted2"⟩ "scope2" "child" "owner"
          ⟨4, none⟩ none ⟨some "db", "child"⟩), .perform 1] [] :=
    ⟨⟨by decide, trivial⟩, ⟨by decide, trivial⟩, trivial⟩
  obtain ⟨-, hmatched, -⟩ := hall _ _ (reaches_played hrun)
  obtain ⟨-, r, g, hpaid, -⟩ := hmatched.family "child" _ List.mem_cons_self "minted" rfl
  cases hpaid

end AgentBlock.Knl
