/-
AgentBlock/Job/Recorded.lean

A run that is recorded as started is recorded as ended: exactly when what it is
to run with can be handed over, and what it answered can be recorded.

    run_started, …, run_ended

Between the two records a run writes a file and hands a command over, and both
may raise; the second record is refused when a string of it is not text.
`started_ended_iff` is the main result; `appended_eq` is what a run appends, and
`encodable_runEnded_iff` when its second record can be appended.
-/
import AgentBlock.Job.Run

namespace AgentBlock.Job

open Utf8

/-! ### What a computation appends -/

/-- What is recorded when `m` has run on these records. -/
def records {α : Type} (m : RunM α) (before : List Event) : List Event := (m.run.run before).2

section

variable {α β : Type} {before : List Event} {e : Event}

@[simp] theorem records_pure (a : α) : records (pure a : RunM α) before = before := rfl

@[simp] theorem records_throw (raised : Raise) :
    records (throw raised : RunM α) before = before := rfl

theorem records_bind (m : RunM α) (g : α → RunM β) :
    records (m >>= g) before =
      match m.run.run before with
      | (.ok a, after) => records (g a) after
      | (.error _, after) => after := by
  show (match m.run.run before with
    | (a, after) => (ExceptT.bindCont g a).run after).2 = _
  rcases m.run.run before with ⟨x, after⟩
  cases x <;> rfl

theorem records_present_bind (f : Option α) (text : String) (g : α → RunM β) :
    records (present f text >>= g) before =
      match f with
      | some a => records (g a) before
      | none => before := by
  cases f <;> rfl

theorem records_call_bind (x : Except Raise α) (g : α → RunM β) :
    records (call x >>= g) before =
      match x with
      | .ok a => records (g a) before
      | .error _ => before := by
  cases x <;> rfl

theorem findSome?_refused : e.data.findSome? (fun f => f.2.refused) = none ↔ e.Encodable := by
  rw [List.findSome?_eq_none_iff]
  apply forall₂_congr
  rintro ⟨key, v⟩ -
  cases v with
  | str s => simp [Value.refused]
  | num n => cases n <;> simp [Value.refused]
  | bool b => simp [Value.refused]

instance : Decidable e.Encodable := decidable_of_iff _ findSome?_refused

theorem run_append (takes : Nat → Bool) (he : e.Encodable) :
    (append takes e).run.run before =
      if takes before.length then (.ok (), before ++ [e]) else (.error .store, before) := by
  simp only [append, findSome?_refused.mpr he]
  show (ite (takes before.length = true) (set (before ++ [e])) (throw Raise.store) :
    RunM Unit).run.run before = _
  split <;> rfl

theorem run_append_of_refused (takes : Nat → Bool) (he : ¬ e.Encodable) :
    ∃ raised, (append takes e).run.run before = (.error raised, before) := by
  obtain ⟨raised, hr⟩ := Option.ne_none_iff_exists'.mp (mt findSome?_refused.mp he)
  refine ⟨raised, ?_⟩
  simp only [append, hr]
  rfl

/-- A record is appended when it can be encoded and the store takes it; else
nothing more is. -/
theorem records_append_bind (takes : Nat → Bool) (g : Unit → RunM β) :
    records (append takes e >>= g) before =
      if e.Encodable ∧ takes before.length then records (g ()) (before ++ [e]) else before := by
  rw [records_bind]
  by_cases he : e.Encodable
  · rw [run_append takes he]
    by_cases ht : takes before.length = true
    · simp only [ht, he, if_true, and_self]
    · simp only [ht, he, if_false, and_false, Bool.false_eq_true]
  · obtain ⟨raised, hr⟩ := @run_append_of_refused before e takes he
    simp only [hr, he, false_and, if_false]

end

/-! ### Records -/

section

variable {kind : String} {fields : List (String × Option Value)}

theorem kind_record : (Event.record kind fields).kind = kind := rfl

theorem get_record (key : String) (h : (fields.map Prod.fst).Nodup) :
    (Event.record kind fields).get key = (fields.lookup key).join := by
  show List.lookup key (fields.filterMap _) = _
  induction fields with
  | nil => rfl
  | cons f rest ih =>
      obtain ⟨k, v⟩ := f
      obtain ⟨hk, hrest⟩ := List.nodup_cons.mp h
      rw [List.lookup_cons]
      by_cases heq : key = k
      · subst heq
        rcases v with - | v
        · -- The key was given `nil`, and none of the others is it.
          have hnone : List.lookup key rest = none :=
            List.lookup_eq_none_iff.mpr fun f hf => by
              simpa using fun he : key = f.1 => hk (List.mem_map.mpr ⟨f, hf, he.symm⟩)
          simp [ih hrest, hnone]
        · simp
      · have hb : (key == k) = false := by simpa using heq
        rcases v with - | v
        · simp [hb, ih hrest]
        · simp [List.lookup_cons, hb, ih hrest]

theorem encodable_record :
    (Event.record kind fields).Encodable ↔ ∀ f ∈ fields, ∀ v, f.2 = some v → v.refused = none := by
  rw [← findSome?_refused, List.findSome?_eq_none_iff]
  constructor
  · intro h f hf v hv
    exact h (f.1, v) (List.mem_filterMap.mpr ⟨f, hf, by simp [hv]⟩)
  · rintro h ⟨key, v⟩ hf
    obtain ⟨g, hg, he⟩ := List.mem_filterMap.mp hf
    obtain ⟨w, hw, heq⟩ := Option.map_eq_some_iff.mp he
    obtain ⟨-, rfl⟩ := Prod.mk.inj heq
    exact h g hg w hw

end

/-! ### The end of a run -/

section

variable (host : Host) (decl : Decl) (opts : RunOpts)

/-- The config file is written, if the run has one. -/
def ConfigWritten : Prop :=
  ∀ path, opts.config = some path → ∃ write encode text,
    (opts.write <|> host.write) = some write ∧ (opts.encode <|> host.encode) = some encode ∧
      encode (Job.config decl (runId host decl opts) opts.result) = .ok text ∧
      write path text = .ok ()

/-- The process the command is handed to answers. -/
def Answers (answer : ExecAnswer) : Prop :=
  ∃ exec, (opts.exec <|> host.exec) = some exec ∧
    exec (command decl opts.bin opts.config) (execOpts host decl opts) = .ok answer

/-- The result file is there, and this is what it holds. -/
def Reads (content : Bytes) : Prop :=
  ∃ path read, opts.result = some path ∧ (opts.read <|> host.read) = some read ∧
    read path = .ok (some content)

/-- What a run that has started needs in order to be recorded as ended. -/
structure Recordable : Prop where
  config : ConfigWritten host decl opts
  answers : ∃ answer, Answers host decl opts answer
  /-- No character is cut in two by the tail. -/
  stderr : ∀ result, Answers host decl opts (.table result) →
    StartsChar (last (encode (result.stderr.getD [])) stderrTailBytes)
  result : ∀ content, Reads host opts content → content.length ≤ resultMaxBytes → Valid content
  resultPath : ∀ path, opts.result = some path → Valid path
  taken : host.takes 1 = true

/-- The end of this run. -/
def isEnd (e : Event) : Bool :=
  e.kind = "run_ended" ∧ e.get "run_id" = some (.str (runId host decl opts))

/-- One record of what the run appends is its end; it is text, of the process's
stderr at most the last bytes, and of the result file all or nothing. -/
def EndedOnce : Prop :=
  ∃ e, (appended host decl opts).filter (isEnd host decl opts) = [e] ∧ e.Encodable ∧
    (∀ result, Answers host decl opts (.table result) →
      ∃ s, e.get "stderr" = some (.str s) ∧ s <:+ encode (result.stderr.getD []) ∧
        s.length ≤ stderrTailBytes) ∧
    ∀ v, e.get "result" = some v → ∃ content, Reads host opts content ∧ v = .str content

variable {host decl opts}

theorem Answers.unique {a b : ExecAnswer} (ha : Answers host decl opts a)
    (hb : Answers host decl opts b) : a = b := by
  obtain ⟨exec, he, ha⟩ := ha
  obtain ⟨exec', he', hb⟩ := hb
  obtain rfl := Option.some.inj (he.symm.trans he')
  exact Except.ok.inj (ha.symm.trans hb)

theorem tail_eq_last (s : Option (List Char)) (n : Nat) : tail s n = last (encode (s.getD [])) n := by
  rw [tail]
  split
  · rename_i h
    exact (last_of_length_le h).symm
  · rfl

theorem readAnswer_eq_some_iff {content : Bytes} :
    (readAnswer host opts).1 = some content ↔
      Reads host opts content ∧ content.length ≤ resultMaxBytes := by
  rw [readAnswer, Reads]
  rcases opts.result with - | path
  · simp
  · rcases opts.read <|> host.read with - | read
    · simp
    · rcases hr : read path with raised | (- | text)
      · simp [hr]
      · simp [hr]
      · by_cases hlen : text.length ≤ resultMaxBytes
        · simp only [hr, hlen, if_true]
          grind
        · simp only [hr, hlen, if_false]
          grind

end

section

variable {host : Host} {decl : Decl} {opts : RunOpts}

theorem refused_str {s : Bytes} : (Value.str s).refused = none ↔ Valid s := by
  simp [Value.refused]

theorem valid_lit (s : String) : Valid (lit s) := valid_encode _

theorem Encodable.ofStarted (h : (runStarted host decl opts).Encodable) :
    Valid decl.name ∧ Valid (runId host decl opts) := by
  rw [runStarted, encodable_record] at h
  simp only [List.forall_mem_cons, Option.some.injEq, forall_eq', refused_str] at h
  exact ⟨h.1, h.2.1⟩

/-- What a run answers with is text, whatever the process answered. -/
theorem valid_outcomeOf {answer : ExecAnswer} {err : Bytes}
    (h : (outcomeOf answer).2.2 = some err) : Valid err := by
  cases answer with
  | other shown =>
      obtain rfl := Option.some.inj h
      exact (valid_lit _).append (valid_encode _)
  | table result =>
      simp only [outcomeOf] at h
      split_ifs at h <;> try cases h
      all_goals exact valid_encode _

theorem encodable_runEnded_iff {answer : ExecAnswer} (hname : Valid decl.name)
    (hid : Valid (runId host decl opts)) :
    (runEnded host decl opts answer).Encodable ↔
      (∀ result, answer = .table result →
        StartsChar (last (encode (result.stderr.getD [])) stderrTailBytes)) ∧
      (∀ content, (readAnswer host opts).1 = some content → Valid content) ∧
      ∀ path, opts.result = some path → Valid path := by
  -- The exit code, the time and that the answer is too large can always be recorded.
  have hcode : ∀ v, ((outcomeOf answer).2.1.map fun n => Value.num (.int n)) = some v →
      v.refused = none := by
    intro v hv
    obtain ⟨n, -, rfl⟩ := Option.map_eq_some_iff.mp hv
    rfl
  have hlarge : ∀ v, (if (readAnswer host opts).2 then some (Value.bool true) else none) = some v →
      v.refused = none := by
    intro v hv
    obtain ⟨-, hv⟩ := Option.ite_none_right_eq_some.mp hv
    obtain rfl := Option.some.inj hv
    rfl
  have htook : (Value.num (.float (host.ended - host.started))).refused = none := rfl
  have hoption : ∀ s : Option Bytes, (∀ v, s.map Value.str = some v → v.refused = none) ↔
      ∀ bs, s = some bs → Valid bs := by
    intro s
    rcases s with - | bs
    · simp
    · simp [refused_str]
  have hstderr : (∀ bs, stderrOf answer = some bs → Valid bs) ↔
      ∀ result, answer = .table result →
        StartsChar (last (encode (result.stderr.getD [])) stderrTailBytes) := by
    rcases answer with result | shown
    · simp only [stderrOf, Option.some.injEq, forall_eq', tail_eq_last, ExecAnswer.table.injEq]
      exact valid_last_iff (valid_encode _) _
    · simp [stderrOf]
  rw [← hstderr]
  simp only [runEnded, encodable_record, List.forall_mem_cons, Option.some.injEq, forall_eq',
    refused_str, hname, hid, valid_lit, htook, hoption, true_and]
  constructor
  · rintro ⟨-, -, hs, hr, hp, -⟩
    exact ⟨hs, hr, hp⟩
  · rintro ⟨hs, hr, hp⟩
    exact ⟨hcode, fun bs => valid_outcomeOf, hs, hr, hp, hlarge, nofun⟩

end

/-! ### What a run appends -/

section

variable {host : Host} {decl : Decl} {opts : RunOpts} {α : Type} {before : List Event}

theorem records_writeConfig_bind (h : ConfigWritten host decl opts) (g : Unit → RunM α) :
    records (writeConfig host decl opts >>= g) before = records (g ()) before := by
  rw [writeConfig]
  rcases hpath : opts.config with - | path
  · rfl
  · obtain ⟨write, encode, text, hw, he, htext, hwrite⟩ := h path hpath
    simp only [bind_assoc, records_present_bind, records_call_bind, hw, he, htext, hwrite]

theorem records_writeConfig_bind_of_not (h : ¬ ConfigWritten host decl opts) (g : Unit → RunM α) :
    records (writeConfig host decl opts >>= g) before = before := by
  rw [writeConfig]
  rcases hpath : opts.config with - | path
  · refine absurd (fun path hp => ?_) h
    simp [hpath] at hp
  · simp only [bind_assoc, records_present_bind, records_call_bind]
    -- A step that does not raise is one of those the file is written by.
    rcases hw : opts.write <|> host.write with - | write
    · rfl
    rcases he : opts.encode <|> host.encode with - | encode
    · rfl
    rcases htext : encode (Job.config decl (runId host decl opts) opts.result) with raised | text
    · simp only [htext]
    rcases hwrite : write path text with raised | ⟨⟩
    · simp only [htext, hwrite]
    refine absurd (fun path' hp => ?_) h
    obtain rfl := Option.some.inj (hpath.symm.trans hp)
    exact ⟨write, encode, text, hw, he, htext, hwrite⟩

/-- The process of the run answered, and the end it has is recorded. -/
def Ends (host : Host) (decl : Decl) (opts : RunOpts) (answer : ExecAnswer) : Prop :=
  ConfigWritten host decl opts ∧ Answers host decl opts answer ∧
    (runEnded host decl opts answer).Encodable ∧ host.takes 1 = true

theorem appended_eq_records : appended host decl opts = records (run host decl opts) [] := rfl

/-- What a run appends that gets as far as its start. -/
theorem appended_of_started {exec : Exec} (hexec : (opts.exec <|> host.exec) = some exec)
    (hs : (runStarted host decl opts).Encodable ∧ host.takes 0 = true) :
    (∃ answer, Ends host decl opts answer ∧
        appended host decl opts = [runStarted host decl opts, runEnded host decl opts answer]) ∨
      (¬ ∃ answer, Ends host decl opts answer) ∧
        appended host decl opts = [runStarted host decl opts] := by
  rw [appended_eq_records, run, hexec, records_present_bind]
  show (∃ answer, _ ∧ records (append _ _ >>= _) [] = _) ∨ _ ∧ records (append _ _ >>= _) [] = _
  rw [records_append_bind, List.length_nil, if_pos hs, List.nil_append]
  by_cases hc : ConfigWritten host decl opts
  swap
  · right
    exact ⟨fun ⟨_, he⟩ => hc he.1, records_writeConfig_bind_of_not hc _⟩
  rw [records_writeConfig_bind hc, records_call_bind]
  rcases ha : exec (command decl opts.bin opts.config) (execOpts host decl opts) with raised | answer
  · right
    refine ⟨?_, rfl⟩
    rintro ⟨answer, -, ⟨exec', he', ha'⟩, -⟩
    obtain rfl := Option.some.inj (hexec.symm.trans he')
    cases ha.symm.trans ha'
  have hanswers : Answers host decl opts answer := ⟨exec, hexec, ha⟩
  simp only [records_append_bind, records_pure]
  by_cases he : (runEnded host decl opts answer).Encodable ∧ host.takes 1 = true
  · left
    exact ⟨answer, ⟨hc, hanswers, he⟩, if_pos he⟩
  · right
    refine ⟨?_, if_neg he⟩
    rintro ⟨answer', -, hanswers', he'⟩
    obtain rfl := hanswers.unique hanswers'
    exact he he'

theorem appended_eq (h : ∃ e ∈ appended host decl opts, e.kind = "run_started") :
    (runStarted host decl opts).Encodable ∧
      ((∃ answer, Ends host decl opts answer ∧
          appended host decl opts = [runStarted host decl opts, runEnded host decl opts answer]) ∨
        (¬ ∃ answer, Ends host decl opts answer) ∧
          appended host decl opts = [runStarted host decl opts]) := by
  rcases hexec : opts.exec <|> host.exec with - | exec
  · simp [appended_eq_records, run, hexec, records_present_bind] at h
  by_cases hs : (runStarted host decl opts).Encodable ∧ host.takes 0 = true
  · exact ⟨hs.1, appended_of_started hexec hs⟩
  · rw [appended_eq_records, run, hexec, records_present_bind] at h
    obtain ⟨e, he, -⟩ := h
    change e ∈ records (append _ _ >>= _) [] at he
    rw [records_append_bind, List.length_nil, if_neg hs] at he
    cases he

end

/-! ### Started and ended -/

section

variable {host : Host} {decl : Decl} {opts : RunOpts} {answer : ExecAnswer}

theorem isEnd_runStarted : isEnd host decl opts (runStarted host decl opts) = false := by
  simp [isEnd, runStarted, Event.record]

theorem isEnd_runEnded : isEnd host decl opts (runEnded host decl opts answer) = true := by
  rw [isEnd, runEnded, get_record _ (by simp)]
  simp [kind_record, List.lookup_cons]

theorem get_stderr_runEnded :
    (runEnded host decl opts answer).get "stderr" = (stderrOf answer).map .str := by
  rw [runEnded, get_record _ (by simp)]
  simp [List.lookup_cons]

theorem get_result_runEnded :
    (runEnded host decl opts answer).get "result" = (readAnswer host opts).1.map .str := by
  rw [runEnded, get_record _ (by simp)]
  simp [List.lookup_cons]

/-- The end of a run can be recorded when it can be encoded. -/
theorem recordable_iff (hs : (runStarted host decl opts).Encodable) :
    (∃ answer, Ends host decl opts answer) ↔ Recordable host decl opts := by
  obtain ⟨hname, hid⟩ := Encodable.ofStarted hs
  constructor
  · rintro ⟨answer, hc, ha, he, ht⟩
    obtain ⟨hstderr, hresult, hpath⟩ := (encodable_runEnded_iff hname hid).mp he
    exact {
      config := hc
      answers := ⟨answer, ha⟩
      stderr := fun result hr => hstderr result (ha.unique hr)
      result := fun content hr hlen => hresult content (readAnswer_eq_some_iff.mpr ⟨hr, hlen⟩)
      resultPath := hpath
      taken := ht }
  · rintro ⟨hc, ⟨answer, ha⟩, hstderr, hresult, hpath, ht⟩
    refine ⟨answer, hc, ha, (encodable_runEnded_iff hname hid).mpr ⟨?_, ?_, hpath⟩, ht⟩
    · rintro result rfl
      exact hstderr result ha
    · intro content hr
      obtain ⟨hr, hlen⟩ := readAnswer_eq_some_iff.mp hr
      exact hresult content hr hlen

theorem Ends.endedOnce (h : Ends host decl opts answer)
    (happ : appended host decl opts =
      [runStarted host decl opts, runEnded host decl opts answer]) :
    EndedOnce host decl opts := by
  obtain ⟨-, ha, he, -⟩ := h
  refine ⟨runEnded host decl opts answer, ?_, he, ?_, ?_⟩
  · rw [happ]
    simp [isEnd_runStarted, isEnd_runEnded]
  · intro result hr
    obtain rfl := ha.unique hr
    refine ⟨_, get_stderr_runEnded, ?_⟩
    rw [tail_eq_last]
    refine ⟨last_suffix _ _, ?_⟩
    rw [length_last]
    exact Nat.min_le_left _ _
  · intro v hv
    rw [get_result_runEnded] at hv
    obtain ⟨content, hc, rfl⟩ := Option.map_eq_some_iff.mp hv
    exact ⟨content, (readAnswer_eq_some_iff.mp hc).1, rfl⟩

/-! ### A command that is text -/

theorem valid_sq {s : Bytes} (h : Valid s) : Valid (sq s) :=
  ((valid_lit _).append (h.replace (by decide) (valid_lit _))).append (valid_lit _)

theorem valid_intercalate {parts : List Bytes} (h : ∀ part ∈ parts, Valid part) :
    Valid ((lit " ").intercalate parts) := by
  induction parts with
  | nil => exact valid_nil
  | cons part rest ih =>
      have hpart := h part (List.mem_cons_self ..)
      rcases rest with - | ⟨next, rest⟩
      · simpa [List.intercalate] using hpart
      · have hrest := ih fun part hp => h part (List.mem_cons_of_mem _ hp)
        rw [List.intercalate_cons_cons]
        exact (hpart.append (valid_lit _)).append hrest

/-- `sh.exec` takes a command whose parts are text. -/
theorem valid_command {bin configPath : Option Bytes} (hpath : Valid decl.path)
    (hcwd : Valid decl.cwd) (hbin : ∀ b, bin = some b → Valid b)
    (hconfig : ∀ path, configPath = some path → Valid path) :
    Valid (command decl bin configPath) := by
  have hb : Valid (bin.getD defaultBin) := by
    rcases bin with - | b
    · exact valid_lit _
    · exact hbin b rfl
  show Valid ((lit " ").intercalate _)
  apply valid_intercalate
  rcases configPath with - | path
  · simp [valid_sq hb, valid_sq hpath, valid_sq hcwd, valid_lit]
  · simp [valid_sq hb, valid_sq hpath, valid_sq hcwd, valid_sq (hconfig path rfl), valid_lit]

/-- A run that is recorded as started is recorded as ended, once and as what
it was, exactly when its config can be written, its command is taken, the tail
of its stderr begins with a character, its result is text, and the store takes
the record. -/
theorem started_ended_iff (h : ∃ e ∈ appended host decl opts, e.kind = "run_started") :
    EndedOnce host decl opts ↔ Recordable host decl opts := by
  obtain ⟨hs, happ⟩ := appended_eq h
  rw [← recordable_iff hs]
  constructor
  · rintro ⟨e, hfilter, -⟩
    rcases happ with ⟨answer, hends, -⟩ | ⟨-, happ⟩
    · exact ⟨answer, hends⟩
    · rw [happ] at hfilter
      simp [isEnd_runStarted] at hfilter
  · intro hends
    rcases happ with ⟨answer, hends, happ⟩ | ⟨hnot, -⟩
    · exact hends.endedOnce happ
    · exact absurd hends hnot

end

/-! ### The job `drain` -/

/-- A job whose runs are called by their time. -/
def drain : Decl where
  name := lit "drain"
  block := lit "drain"
  path := lit "/repo/blocks/drain/init.lua"
  cwd := lit "/repo"
  every := none
  timeout := .int 600
  prompt := none
  context := none

/-- Where every command ends with 1 and this stderr. -/
def failing (stderr : List Char) : Host where
  exec := some (shExec fun _ _ => { ok := true, code := some 1, stderr := some stderr })

section

variable {opts : RunOpts}

theorem answers_failing (stderr : List Char) (hexec : opts.exec = none)
    (hbin : ∀ b, opts.bin = some b → Valid b)
    (hconfig : ∀ path, opts.config = some path → Valid path) :
    Answers (failing stderr) drain opts (.table { ok := true, code := some 1, stderr }) := by
  refine ⟨_, by rw [hexec]; rfl, if_pos ?_⟩
  exact valid_command (valid_lit _) (valid_lit _) hbin hconfig

theorem valid_runId_drain (host : Host) (hid : opts.runId = none) :
    Valid (runId host drain opts) := by
  rw [runId, hid]
  exact (valid_lit _).append (valid_lit _)

theorem encodable_runStarted_drain (host : Host) (hid : opts.runId = none) :
    (runStarted host drain opts).Encodable := by
  have hvalid := valid_runId_drain host hid
  rw [runStarted, encodable_record]
  simp only [List.forall_mem_cons, Option.some.injEq, forall_eq', refused_str, hvalid]
  simp [drain, valid_lit, Value.refused]

theorem drain_starts (stderr : List Char) (hexec : opts.exec = none) (hid : opts.runId = none) :
    ∃ e ∈ appended (failing stderr) drain opts, e.kind = "run_started" := by
  rcases @appended_of_started (failing stderr) drain opts _ (by rw [hexec]; rfl)
    ⟨encodable_runStarted_drain _ hid, rfl⟩ with ⟨answer, -, h⟩ | ⟨-, h⟩
  · exact ⟨_, h ▸ List.mem_cons_self .., rfl⟩
  · exact ⟨_, h ▸ List.mem_cons_self .., rfl⟩

end

theorem encode_replicate (n : Nat) : encode (List.replicate n 'a') = List.replicate n 97 := by
  induction n with
  | zero => rfl
  | succ n ih =>
      rw [List.replicate_succ, encode_cons, ih]
      rfl

/-- A run that is told through a config file, and asked for a result. -/
def asked : RunOpts where
  config := some (lit "/repo/runs/drain.json")
  result := some (lit "/repo/runs/drain.out")
  write := some fun _ _ => .ok ()
  encode := some fun _ => .ok (lit "\x7b\x7d")
  read := some fun _ => .ok (some (lit "two queues drained"))

/-- 4098 bytes of stderr: the last 4096 begin after its first character. -/
def longStderr : List Char := 'é' :: List.replicate 4096 'a'

theorem last_longStderr :
    last (encode longStderr) stderrTailBytes = 97 :: List.replicate 4095 97 := by
  have he : encode longStderr = [0xC3, 0xA9] ++ List.replicate 4096 97 := by
    rw [longStderr, encode_cons, encode_replicate]
    rfl
  have hlen : (encode longStderr).length - stderrTailBytes = 2 := by
    rw [he, List.length_append, List.length_replicate]
    rfl
  rw [last, hlen, he]
  rfl

/-- A run that is cut between two characters of its stderr is recorded, with the
result it was asked for. -/
theorem an_asked_run_ends : EndedOnce (failing longStderr) drain asked :=
  have hconfig : ∀ path, asked.config = some path → Valid path := by
    rintro path ⟨⟩
    exact valid_lit _
  have hbin : ∀ b, asked.bin = some b → Valid b := by rintro b ⟨⟩
  have hanswers := answers_failing longStderr rfl hbin hconfig
  (started_ended_iff (drain_starts longStderr rfl rfl)).mpr {
    config := fun path hpath => ⟨_, _, _, rfl, rfl, rfl, rfl⟩
    answers := ⟨_, hanswers⟩
    stderr := fun result hr => by
      obtain rfl := ExecAnswer.table.inj (hr.unique hanswers)
      rw [Option.getD_some, last_longStderr, startsChar_cons]
      decide
    result := by
      rintro content ⟨path, read, -, hread, hcontent⟩ -
      obtain rfl := Option.some.inj hread
      obtain rfl := Option.some.inj (Except.ok.inj hcontent)
      exact valid_lit _
    resultPath := by
      rintro path ⟨⟩
      exact valid_lit _
    taken := rfl }

/-- 4097 bytes of stderr: the last 4096 begin within its first character. -/
def cutStderr : List Char := 'é' :: List.replicate 4095 'a'

theorem last_cutStderr :
    last (encode cutStderr) stderrTailBytes = 0xA9 :: List.replicate 4095 97 := by
  have he : encode cutStderr = [0xC3, 0xA9] ++ List.replicate 4095 97 := by
    rw [cutStderr, encode_cons, encode_replicate]
    rfl
  have hlen : (encode cutStderr).length - stderrTailBytes = 1 := by
    rw [he, List.length_append, List.length_replicate]
    rfl
  rw [last, hlen, he]
  rfl

/-- The end of a run whose stderr is cut within a character is refused, and the
run stays live. -/
theorem a_cut_character_leaves_the_run_live :
    (∃ e ∈ appended (failing cutStderr) drain {}, e.kind = "run_started") ∧
      ¬ EndedOnce (failing cutStderr) drain {} := by
  refine ⟨drain_starts _ rfl rfl, ?_⟩
  rintro ⟨e, hfilter, -⟩
  rcases @appended_of_started (failing cutStderr) drain {} _ rfl
    ⟨encodable_runStarted_drain _ rfl, rfl⟩ with ⟨answer, hends, -⟩ | ⟨-, h⟩
  · obtain ⟨-, ha, he, -⟩ := hends
    have hcut := ((encodable_runEnded_iff (valid_lit _) (valid_runId_drain _ rfl)).mp he).1 _
      (ha.unique (answers_failing _ rfl nofun nofun))
    rw [Option.getD_some, last_cutStderr, startsChar_cons] at hcut
    revert hcut
    decide
  · rw [h] at hfilter
    simp [isEnd_runStarted] at hfilter

end AgentBlock.Job
