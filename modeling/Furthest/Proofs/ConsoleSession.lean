import Furthest.Console
import Furthest.Proofs.Calculator.Totality
import Furthest.Proofs.Spans

/-!
# Sessions of the console

`Prints` has what a line prints after the lines before it. It depends on them only through the value of the last
expression among them and the number of times that tracing was switched: `reply` computes it from these (`prints_iff`),
and `replies` has what the lines of a session print. No line ends a session with a fault, because the calculator gives
nothing up.

`HasLines` has which lines an input is made of. The console takes it apart into those (`lines_eq_iff`).

Main statement: `session_remembers`.
-/

namespace Furthest.Console

variable {ν : Type}

/-! ## Input -/

/-- The lines that an input is made of. A line feed ends each of them; the last one needs none if it is not empty. -/
inductive HasLines : Bytes → List Bytes → Prop
  | none : HasLines [] []
  | last {line : Bytes} (hne : line ≠ []) (hline : Bytes.newline ∉ line) : HasLines line [line]
  | more {line rest : Bytes} {ls : List Bytes} (hline : Bytes.newline ∉ line) (hrest : HasLines rest ls) :
    HasLines (line ++ Bytes.newline :: rest) (line :: ls)

theorem hasLines_linesFrom {begun : Bytes} (h : Bytes.newline ∉ begun) (text : Bytes) :
    HasLines (begun.reverse ++ text) (linesFrom begun text) := by
  induction text generalizing begun with
  | nil =>
    rw [linesFrom, List.append_nil]
    split
    · next hnil =>
      rw [hnil]
      exact .none
    · next hne => exact .last (mt List.reverse_eq_nil_iff.1 hne) (mt List.mem_reverse.1 h)
  | cons b text ih =>
    rw [linesFrom]
    split
    · next hb =>
      rw [hb]
      exact .more (mt List.mem_reverse.1 h) (ih List.not_mem_nil)
    · next hb =>
      have hbegun : Bytes.newline ∉ b :: begun := List.not_mem_cons_of_ne_of_not_mem (Ne.symm hb) h
      have hlines := ih hbegun
      rwa [List.reverse_cons, List.append_assoc] at hlines

/-- A part of a line is read byte by byte. -/
theorem linesFrom_append {us : Bytes} (h : Bytes.newline ∉ us) (begun rest : Bytes) :
    linesFrom begun (us ++ rest) = linesFrom (us.reverse ++ begun) rest := by
  induction us generalizing begun with
  | nil => rfl
  | cons b us ih =>
    obtain ⟨hb, hus⟩ := not_or.1 (List.mem_cons.not.1 h)
    rw [List.cons_append, linesFrom, if_neg (Ne.symm hb), ih hus, List.reverse_cons, List.append_assoc]
    rfl

/-- The console takes an input apart into the lines that it is made of. -/
theorem lines_eq_iff {text : Bytes} {ls : List Bytes} : lines text = ls ↔ HasLines text ls := by
  constructor
  · rintro rfl
    exact hasLines_linesFrom List.not_mem_nil text
  · intro h
    induction h with
    | none => rfl
    | @last line hne hline =>
      have hread := linesFrom_append hline [] []
      rw [List.append_nil, List.append_nil] at hread
      rw [lines, hread, linesFrom, if_neg (mt List.reverse_eq_nil_iff.1 hne), List.reverse_reverse]
    | @more line rest ls hline hrest ih =>
      rw [lines, linesFrom_append hline, linesFrom, if_pos rfl, List.append_nil, List.reverse_reverse]
      exact congrArg (line :: ·) ih

/-! ## Lines -/

/-- The lines that are no expressions. -/
def commands : List Bytes := [ascii "?", ascii "q", ascii "l", ascii "t"]

/-- The line is an expression that has a value. -/
def Accepts (d : Display ν) (line : Bytes) (x : ν) : Prop :=
  line ∉ commands ∧ ((calculator d.arithmetic).parse line : Run Unit _).Ends (.ok x)

/-- The line is no command and no expression. -/
def Rejects (d : Display ν) (line : Bytes) (e : ParseError) : Prop :=
  line ∉ commands ∧ ((calculator d.arithmetic).parse line : Run Unit _).Ends (.error e)

/-- What a line prints that does not quit, after the lines before it. -/
inductive Prints (d : Display ν) (earlier : List Bytes) : Bytes → Bytes → Prop
  | help : Prints d earlier (ascii "?") (ascii "\n" ++ help)
  /-- The value of the last line before it that has one. -/
  | last {before between : List Bytes} {m : Bytes} {x : ν} (hearlier : earlier = before ++ m :: between)
    (hm : Accepts d m x) (hbetween : ∀ m ∈ between, ∀ y, ¬Accepts d m y) :
    Prints d earlier (ascii "l") (ascii "\n" ++ d.shown x)
  | nothing (hnone : ∀ m ∈ earlier, ∀ y, ¬Accepts d m y) :
    Prints d earlier (ascii "l") (ascii "\nError: Nothing evaluated yet!")
  | on (heven : earlier.count (ascii "t") % 2 = 0) : Prints d earlier (ascii "t") (ascii "\nTracing on")
  | off (hodd : earlier.count (ascii "t") % 2 = 1) : Prints d earlier (ascii "t") (ascii "\nTracing off")
  | value {line : Bytes} {x : ν} (h : Accepts d line x) : Prints d earlier line (ascii "\n" ++ d.shown x)
  | error {line : Bytes} {e : ParseError} (h : Rejects d line e) :
    Prints d earlier line (ascii "\nError: " ++ e.message)

/-- The calculator gives no input up. It reports a value or an error whatever the log is, and keeps its level. -/
theorem exists_execute_parse (A : Arithmetic ν) (line : Bytes) :
    ∃ (w : Except ParseError ν) (es : List Entry), ((calculator A).parse line : Run Unit _).Ends w ∧
      ∀ log, ((calculator A).parse line).execute ⟨log, ()⟩ = (.ok w, ⟨log.recordAll es, ()⟩) := by
  obtain ⟨o, ho, -⟩ := Calculator.Rule.calculator.concludes (σ := Unit) A line 0
  obtain ⟨e, he, hparser⟩ := Calculator.Rule.calculator.combined (F := Run.Silent (σ := Unit)) A
  obtain ⟨ended, _, l, -, hrun⟩ := e.logs he line 0 ()
  rw [hparser] at hrun
  obtain rfl : ended = .ok o := (congrArg Prod.fst (hrun (.ofLevel .off)).1).symm.trans (ho _)
  have hparse (log : Log) : ((calculator A).parse line).execute ⟨log, ()⟩ =
      (.ok (Parser.wholeOf line o), ⟨log.recordAll (Span.entriesAll l), ()⟩) := by
    have hcalculator : (calculator A line 0).execute ⟨log, ()⟩ = _ := (hrun log).1
    rw [Parser.parse_eq, Run.execute_bind, hcalculator]
    rfl
  exact ⟨_, _, fun env => congrArg Prod.fst (hparse env.log), hparse⟩

theorem ofLine_cases (line : Bytes) :
    line = ascii "?" ∧ Command.ofLine line = .help ∨ line = ascii "q" ∧ Command.ofLine line = .quit ∨
      line = ascii "l" ∧ Command.ofLine line = .last ∨ line = ascii "t" ∧ Command.ofLine line = .trace ∨
        line ∉ commands ∧ Command.ofLine line = .evaluate line := by
  unfold Command.ofLine commands
  split_ifs <;> simp_all

theorem ne_of_not_mem_commands {line : Bytes} (h : line ∉ commands) :
    line ≠ ascii "?" ∧ line ≠ ascii "q" ∧ line ≠ ascii "l" ∧ line ≠ ascii "t" := by
  simpa [commands] using h

theorem ofLine_eq_evaluate {line : Bytes} (h : line ∉ commands) : Command.ofLine line = .evaluate line := by
  obtain ⟨hhelp, hquit, hlast, htrace⟩ := ne_of_not_mem_commands h
  rw [Command.ofLine, if_neg hhelp, if_neg hquit, if_neg hlast, if_neg htrace]

theorem ofLine_eq_quit_iff {line : Bytes} : Command.ofLine line = .quit ↔ line = ascii "q" := by
  rcases ofLine_cases line with ⟨rfl, h⟩ | ⟨rfl, h⟩ | ⟨rfl, h⟩ | ⟨rfl, h⟩ | ⟨hline, h⟩ <;> rw [h]
  · decide
  · decide
  · decide
  · decide
  · simp [(ne_of_not_mem_commands hline).2.1]

/-- The value of a line that has one. -/
def value? (d : Display ν) (line : Bytes) : Option ν :=
  match Command.ofLine line with
  | .evaluate expression =>
    match ((calculator d.arithmetic).parse expression).outcome ⟨.ofLevel .off, ()⟩ with
    | .ok (.ok x) => some x
    | _ => none
  | _ => none

theorem Accepts.value?_eq {d : Display ν} {line : Bytes} {x : ν} (h : Accepts d line x) : value? d line = some x := by
  simp [value?, ofLine_eq_evaluate h.1, h.2 ⟨.ofLevel .off, ()⟩]

theorem Rejects.value?_eq {d : Display ν} {line : Bytes} {e : ParseError} (h : Rejects d line e) :
    value? d line = none := by
  simp [value?, ofLine_eq_evaluate h.1, h.2 ⟨.ofLevel .off, ()⟩]

/-- A line that is no command has a value or an error. -/
theorem accepts_or_rejects (d : Display ν) {line : Bytes} (h : line ∉ commands) :
    (∃ x, Accepts d line x) ∨ ∃ e, Rejects d line e := by
  obtain ⟨w, -, hends, -⟩ := exists_execute_parse d.arithmetic line
  cases w with
  | ok x => exact .inl ⟨x, h, hends⟩
  | error e => exact .inr ⟨e, h, hends⟩

theorem value?_of_mem_commands {d : Display ν} {line : Bytes} (h : line ∈ commands) : value? d line = none := by
  rcases ofLine_cases line with ⟨-, hline⟩ | ⟨-, hline⟩ | ⟨-, hline⟩ | ⟨-, hline⟩ | ⟨hline, -⟩
  · rw [value?, hline]
  · rw [value?, hline]
  · rw [value?, hline]
  · rw [value?, hline]
  · exact absurd h hline

theorem value?_eq_some_iff {d : Display ν} {line : Bytes} {x : ν} : value? d line = some x ↔ Accepts d line x := by
  refine ⟨fun h => ?_, Accepts.value?_eq⟩
  by_cases hline : line ∈ commands
  · cases (value?_of_mem_commands hline).symm.trans h
  · obtain ⟨y, hy⟩ | ⟨e, he⟩ := accepts_or_rejects d hline
    · rwa [← Option.some_inj.1 (hy.value?_eq.symm.trans h)]
    · cases he.value?_eq.symm.trans h

theorem value?_eq_none_iff {d : Display ν} {line : Bytes} : value? d line = none ↔ ∀ x, ¬Accepts d line x := by
  simp only [Option.eq_none_iff_forall_ne_some, ne_eq, value?_eq_some_iff]

/-! ## What a session remembers -/

/-- The value of the last line that has one. -/
def lastOf (d : Display ν) (earlier : List Bytes) : Option ν := earlier.reverse.findSome? (value? d)

/-- Whether the grammar is traced after some lines. -/
def tracingAfter (earlier : List Bytes) : Bool := earlier.count (ascii "t") % 2 = 1

/-- The level of the log after some lines. -/
def levelAfter (level : Level) (earlier : List Bytes) : Level := if tracingAfter earlier then .trace else level

/-- The state after some lines. -/
def after (d : Display ν) (level : Level) (earlier : List Bytes) : State ν :=
  ⟨level, lastOf d earlier, tracingAfter earlier⟩

/-- What a line writes, after a last value and with tracing on or off. -/
def reply (d : Display ν) (last : Option ν) (tracing : Bool) (line : Bytes) : Bytes :=
  match Command.ofLine line with
  | .help => ascii "\n" ++ help
  | .quit => []
  | .last =>
    match last with
    | some x => ascii "\n" ++ d.shown x
    | none => ascii "\nError: Nothing evaluated yet!"
  | .trace => ascii (if tracing then "\nTracing off" else "\nTracing on")
  | .evaluate expression =>
    match ((calculator d.arithmetic).parse expression).outcome ⟨.ofLevel .off, ()⟩ with
    | .ok (.ok x) => ascii "\n" ++ d.shown x
    | .ok (.error e) => ascii "\nError: " ++ e.message
    | .error _ => []

/-- What the lines of a session write, after earlier lines, up to one that quits. -/
def replies (d : Display ν) (earlier : List Bytes) : List Bytes → List Bytes
  | [] => []
  | line :: rest =>
    if Command.ofLine line = .quit then []
    else reply d (lastOf d earlier) (tracingAfter earlier) line :: replies d (earlier ++ [line]) rest

variable {d : Display ν} {level : Level} {earlier : List Bytes} {line : Bytes}

/-- Nothing is remembered as long as no line has a value. -/
theorem lastOf_eq_none_iff : lastOf d earlier = none ↔ ∀ m ∈ earlier, ∀ x, ¬Accepts d m x := by
  simp only [lastOf, List.findSome?_eq_none_iff, List.mem_reverse, value?_eq_none_iff]

/-- What is remembered is the value of the last line that has one. -/
theorem lastOf_eq_some_iff {x : ν} :
    lastOf d earlier = some x ↔ ∃ before m between, earlier = before ++ m :: between ∧ Accepts d m x ∧
      ∀ m ∈ between, ∀ y, ¬Accepts d m y := by
  simp only [lastOf, List.findSome?_eq_some_iff, value?_eq_some_iff, value?_eq_none_iff]
  constructor
  · rintro ⟨between, m, before, hlines, hm, hbetween⟩
    refine ⟨before.reverse, m, between.reverse, ?_, hm, fun m hm => hbetween m (List.mem_reverse.1 hm)⟩
    rw [← earlier.reverse_reverse, hlines, List.reverse_append, List.reverse_cons, List.append_assoc]
    rfl
  · rintro ⟨before, m, between, rfl, hm, hbetween⟩
    refine ⟨between.reverse, m, before.reverse, ?_, hm, fun m hm => hbetween m (List.mem_reverse.1 hm)⟩
    rw [List.reverse_append, List.reverse_cons, List.append_assoc]
    rfl

theorem lastOf_append (d : Display ν) (earlier : List Bytes) (line : Bytes) :
    lastOf d (earlier ++ [line]) = (value? d line).or (lastOf d earlier) := by
  cases h : value? d line <;> simp [lastOf, h]

theorem lastOf_append_of_none (h : value? d line = none) : lastOf d (earlier ++ [line]) = lastOf d earlier := by
  rw [lastOf_append, h, Option.none_or]

theorem tracingAfter_append_of_ne (h : line ≠ ascii "t") :
    tracingAfter (earlier ++ [line]) = tracingAfter earlier := by
  simp [tracingAfter, h]

theorem tracingAfter_append_trace : tracingAfter (earlier ++ [ascii "t"]) = !tracingAfter earlier := by
  simp only [tracingAfter, List.count_append, List.count_singleton_self]
  rcases Nat.mod_two_eq_zero_or_one (earlier.count (ascii "t")) with h | h
  · simp [Nat.add_mod, h]
  · simp [Nat.add_mod, h]

/-- A line that has no value and does not switch tracing is forgotten. -/
theorem after_append_of_none (hv : value? d line = none) (ht : line ≠ ascii "t") :
    after d level (earlier ++ [line]) = after d level earlier := by
  rw [after, lastOf_append_of_none hv, tracingAfter_append_of_ne ht, after]

theorem levelAfter_append_of_ne (h : line ≠ ascii "t") :
    levelAfter level (earlier ++ [line]) = levelAfter level earlier := by
  rw [levelAfter, tracingAfter_append_of_ne h, levelAfter]

/-! ## Answers -/

/-- A line is answered by its reply, and leaves the state and the level after the lines up to it. -/
theorem execute_answer (hline : line ≠ ascii "q") {log : Log} (hlog : log.level = levelAfter level earlier) :
    ∃ log', (answer d (after d level earlier) (.ofLine line)).execute ⟨log, ()⟩ =
        (.ok (reply d (lastOf d earlier) (tracingAfter earlier) line, after d level (earlier ++ [line])),
          ⟨log', ()⟩) ∧
      log'.level = levelAfter level (earlier ++ [line]) := by
  rcases ofLine_cases line with ⟨rfl, h⟩ | ⟨rfl, -⟩ | ⟨rfl, h⟩ | ⟨rfl, h⟩ | ⟨hexpression, h⟩
  · have hv : value? d (ascii "?") = none := by rw [value?, h]
    simp only [reply, h]
    rw [after_append_of_none hv (by decide), levelAfter_append_of_ne (by decide)]
    exact ⟨log, rfl, hlog⟩
  · exact absurd rfl hline
  · have hv : value? d (ascii "l") = none := by rw [value?, h]
    simp only [reply, h]
    rw [after_append_of_none hv (by decide), levelAfter_append_of_ne (by decide)]
    refine ⟨log, ?_, hlog⟩
    rw [answer, after]
    cases lastOf d earlier <;> rfl
  · have hv : value? d (ascii "t") = none := by rw [value?, h]
    refine ⟨{ log with level := levelAfter level (earlier ++ [ascii "t"]) }, ?_, rfl⟩
    simp only [reply, h]
    rw [after, after, levelAfter, lastOf_append_of_none hv, tracingAfter_append_trace]
    cases tracingAfter earlier <;> rfl
  · obtain ⟨-, -, -, ht⟩ := ne_of_not_mem_commands hexpression
    obtain ⟨w, es, hends, hrun⟩ := exists_execute_parse d.arithmetic line
    simp only [reply, h, answer, Run.execute_bind, hrun, hends _]
    rw [levelAfter_append_of_ne ht]
    cases w with
    | ok x =>
      have hv : value? d line = some x := Accepts.value?_eq ⟨hexpression, hends⟩
      rw [after, after, lastOf_append, hv, tracingAfter_append_of_ne ht]
      exact ⟨_, rfl, (log.level_recordAll es).trans hlog⟩
    | error e =>
      have hv : value? d line = none := Rejects.value?_eq ⟨hexpression, hends⟩
      rw [after_append_of_none hv ht]
      exact ⟨_, rfl, (Log.level_record ..).trans ((log.level_recordAll es).trans hlog)⟩

/-- The answers to the lines that are left are their replies. -/
theorem execute_answers (lines : List Bytes) {log : Log} (hlog : log.level = levelAfter level earlier) :
    ∃ log', (answers d (after d level earlier) lines).execute ⟨log, ()⟩ =
      (.ok (replies d earlier lines), ⟨log', ()⟩) := by
  induction lines generalizing earlier log with
  | nil => exact ⟨log, rfl⟩
  | cons line lines ih =>
    rw [answers, replies]
    split
    · exact ⟨log, rfl⟩
    · next hquit =>
      obtain ⟨log', hrun, hlog'⟩ := execute_answer (fun h => hquit (ofLine_eq_quit_iff.2 h)) hlog
      obtain ⟨log'', hrest⟩ := ih hlog'
      refine ⟨log'', ?_⟩
      rw [Run.execute_bind, hrun]
      simp only [Run.execute_bind, hrest]
      rfl

/-- The answers to some lines that do not quit, and the state after them. -/
def progress (d : Display ν) : State ν → List Bytes → Run Unit (List Bytes × State ν)
  | s, [] => return ([], s)
  | s, line :: lines => do
    let (text, s) ← answer d s (.ofLine line)
    let (texts, s) ← progress d s lines
    return (text :: texts, s)

/-- A session goes through the states after the first of its lines. -/
theorem answers_append (s : State ν) {first : List Bytes} (h : ascii "q" ∉ first) (rest : List Bytes) :
    answers d s (first ++ rest) = do
      let (texts, s) ← progress d s first
      return texts ++ (← answers d s rest) := by
  induction first generalizing s with
  | nil => simp [progress]
  | cons line first ih =>
    obtain ⟨hline, hfirst⟩ := not_or.1 (List.mem_cons.not.1 h)
    have hquit : Command.ofLine line ≠ .quit := fun hq => hline (ofLine_eq_quit_iff.1 hq).symm
    simp only [List.cons_append, answers, progress, if_neg hquit, ih _ hfirst]
    simp

theorem execute_progress {first : List Bytes} (h : ascii "q" ∉ first) {log : Log}
    (hlog : log.level = levelAfter level earlier) :
    ∃ log', (progress d (after d level earlier) first).execute ⟨log, ()⟩ =
        (.ok (replies d earlier first, after d level (earlier ++ first)), ⟨log', ()⟩) ∧
      log'.level = levelAfter level (earlier ++ first) := by
  induction first generalizing earlier log with
  | nil => exact ⟨log, by rw [List.append_nil]; rfl, by rwa [List.append_nil]⟩
  | cons line first ih =>
    obtain ⟨hline, hfirst⟩ := not_or.1 (List.mem_cons.not.1 h)
    have hquit : Command.ofLine line ≠ .quit := fun hq => hline (ofLine_eq_quit_iff.1 hq).symm
    obtain ⟨log', hrun, hlog'⟩ := execute_answer (fun hq => hline hq.symm) hlog
    obtain ⟨log'', hrest, hlog''⟩ := ih hfirst hlog'
    rw [List.append_assoc] at hrest hlog''
    refine ⟨log'', ?_, hlog''⟩
    rw [progress, Run.execute_bind, hrun, replies, if_neg hquit]
    simp only [Run.execute_bind, hrest]
    rfl

/-! ## Replies -/

theorem length_replies (d : Display ν) (earlier lines : List Bytes) :
    (replies d earlier lines).length = (lines.takeWhile (· ≠ ascii "q")).length := by
  induction lines generalizing earlier with
  | nil => rfl
  | cons line lines ih => by_cases h : line = ascii "q" <;> simp [replies, ofLine_eq_quit_iff, h, ih]

/-- The reply to a line is made of what the lines before it left. -/
theorem getElem?_replies {first : List Bytes} (h : ascii "q" ∉ first) (hline : line ≠ ascii "q") (rest : List Bytes) :
    (replies d earlier (first ++ line :: rest))[first.length]? =
      some (reply d (lastOf d (earlier ++ first)) (tracingAfter (earlier ++ first)) line) := by
  induction first generalizing earlier with
  | nil => simp [replies, ofLine_eq_quit_iff, hline]
  | cons m first ih =>
    obtain ⟨hm, hfirst⟩ := not_or.1 (List.mem_cons.not.1 h)
    have ih := @ih (earlier ++ [m]) hfirst
    rw [List.append_assoc] at ih
    simpa [replies, ofLine_eq_quit_iff, Ne.symm hm] using ih

/-- Earlier lines matter for what they leave. -/
theorem replies_congr {earlier' : List Bytes} (hl : lastOf d earlier = lastOf d earlier')
    (ht : tracingAfter earlier = tracingAfter earlier') (lines : List Bytes) :
    replies d earlier lines = replies d earlier' lines := by
  induction lines generalizing earlier earlier' with
  | nil => rfl
  | cons line lines ih =>
    have hl' : lastOf d (earlier ++ [line]) = lastOf d (earlier' ++ [line]) := by
      rw [lastOf_append, lastOf_append, hl]
    have ht' : tracingAfter (earlier ++ [line]) = tracingAfter (earlier' ++ [line]) := by
      by_cases h : line = ascii "t"
      · rw [h, tracingAfter_append_trace, tracingAfter_append_trace, ht]
      · rw [tracingAfter_append_of_ne h, tracingAfter_append_of_ne h, ht]
    rw [replies, replies, hl, ht, ih hl' ht']

/-- Without a line that is forgotten, the other lines write the same. -/
theorem replies_eraseIdx (hline : line ≠ ascii "q") (hv : value? d line = none) (ht : line ≠ ascii "t")
    (first rest : List Bytes) :
    replies d earlier (first ++ rest) = (replies d earlier (first ++ line :: rest)).eraseIdx first.length := by
  induction first generalizing earlier with
  | nil =>
    simp only [List.nil_append, replies, ofLine_eq_quit_iff, hline, if_false, List.length_nil,
      List.eraseIdx_cons_zero]
    exact (replies_congr (lastOf_append_of_none hv) (tracingAfter_append_of_ne ht) rest).symm
  | cons m first ih => by_cases hm : m = ascii "q" <;> simp [replies, ofLine_eq_quit_iff, hm, ih]

theorem Accepts.reply_eq {x : ν} (h : Accepts d line x) (last : Option ν) (tracing : Bool) :
    reply d last tracing line = ascii "\n" ++ d.shown x := by
  simp [reply, ofLine_eq_evaluate h.1, h.2 ⟨.ofLevel .off, ()⟩]

theorem Rejects.reply_eq {e : ParseError} (h : Rejects d line e) (last : Option ν) (tracing : Bool) :
    reply d last tracing line = ascii "\nError: " ++ e.message := by
  simp [reply, ofLine_eq_evaluate h.1, h.2 ⟨.ofLevel .off, ()⟩]

theorem Prints.reply_eq {text : Bytes} (h : Prints d earlier line text) :
    reply d (lastOf d earlier) (tracingAfter earlier) line = text := by
  cases h with
  | help => rfl
  | last hearlier hm hbetween => rw [lastOf_eq_some_iff.2 ⟨_, _, _, hearlier, hm, hbetween⟩]; rfl
  | nothing hnone => rw [lastOf_eq_none_iff.2 hnone]; rfl
  | on heven => rw [tracingAfter, heven]; rfl
  | off hodd => rw [tracingAfter, hodd]; rfl
  | value hx => exact hx.reply_eq _ _
  | error he => exact he.reply_eq _ _

theorem exists_prints (d : Display ν) (earlier : List Bytes) (hline : line ≠ ascii "q") :
    ∃ text, Prints d earlier line text := by
  rcases ofLine_cases line with ⟨rfl, -⟩ | ⟨rfl, -⟩ | ⟨rfl, -⟩ | ⟨rfl, -⟩ | ⟨hexpression, -⟩
  · exact ⟨_, .help⟩
  · exact absurd rfl hline
  · cases hlast : lastOf d earlier with
    | none => exact ⟨_, .nothing (lastOf_eq_none_iff.1 hlast)⟩
    | some x =>
      obtain ⟨before, m, between, hearlier, hm, hbetween⟩ := lastOf_eq_some_iff.1 hlast
      exact ⟨_, .last hearlier hm hbetween⟩
  · rcases Nat.mod_two_eq_zero_or_one (earlier.count (ascii "t")) with heven | hodd
    · exact ⟨_, .on heven⟩
    · exact ⟨_, .off hodd⟩
  · obtain ⟨x, hx⟩ | ⟨e, he⟩ := accepts_or_rejects d hexpression
    · exact ⟨_, .value hx⟩
    · exact ⟨_, .error he⟩

/-- A line that does not quit prints its reply. -/
theorem prints_iff {text : Bytes} (hline : line ≠ ascii "q") :
    Prints d earlier line text ↔ reply d (lastOf d earlier) (tracingAfter earlier) line = text := by
  refine ⟨Prints.reply_eq, ?_⟩
  rintro rfl
  obtain ⟨text, h⟩ := exists_prints d earlier hline
  rwa [h.reply_eq]

/-- A session ends, and writes the replies to its lines. Its log is the one that the answers leave. -/
theorem exists_run_eq (d : Display ν) (level : Level) (ls : List Bytes) :
    ∃ log, (answers d (.initial level) ls).execute ⟨(Log.ofLevel level).record started, ()⟩ =
        (.ok (replies d [] ls), ⟨log, ()⟩) ∧
      ∀ arguments input, request .warn arguments = .session level → HasLines input ls →
        run d arguments input = .ok ⟨0, transcript (replies d [] ls), (log.record ended).lines⟩ := by
  obtain ⟨log, hrun⟩ : ∃ log, (answers d (after d level []) ls).execute
      ⟨(Log.ofLevel level).record started, ()⟩ = (.ok (replies d [] ls), ⟨log, ()⟩) :=
    execute_answers _ ((Log.ofLevel level).level_record started)
  have hsession : (session d level ls).execute ⟨.ofLevel level, ()⟩ =
      (.ok (transcript (replies d [] ls)), ⟨log.record ended, ()⟩) := by
    rw [session, Run.execute_bind, Run.execute_record]
    simp only [Run.execute_bind]
    rw [show State.initial level = after d level [] from rfl, hrun]
    rfl
  exact ⟨log, hrun, fun arguments input h hls => by simp only [run, h, lines_eq_iff.2 hls, hsession]⟩

/-! ## Main statement -/

/-- A session exits with 0, whatever its lines are. It writes the help text, what each line before the first that
quits prints, after a prompt, and a last prompt; the level that its log starts with makes no difference to this. It
goes through the states after each first part of its lines, with the log at the lowest level after an odd number of
switches. The last value is printed as it was by the line that had it. Without a line that asks for help, for the last
value or is rejected, the other lines print the same. -/
theorem session_remembers (d : Display ν) (level : Level) (ls : List Bytes) :
    (help = ascii "Enter an arithmetic expression or one of the following commands:\n" ++ ascii "   ? : help\n" ++
        ascii "   q : quit\n" ++ ascii "   l : show last result\n" ++ ascii "   t : toggle grammar tracing" ∧
      prompt = ascii "\n\n>> ") ∧
    (∃ arguments, request .warn arguments = .session level) ∧
    (∃ log, (answers d (.initial level) ls).execute ⟨(Log.ofLevel level).record started, ()⟩ =
        (.ok (replies d [] ls), ⟨log, ()⟩) ∧
      ∀ arguments input, request .warn arguments = .session level → HasLines input ls →
        run d arguments input =
          .ok ⟨0, help ++ (replies d [] ls).flatMap (prompt ++ ·) ++ prompt, (log.record ended).lines⟩) ∧
    (∀ arguments arguments' level' input, request .warn arguments = .session level →
      request .warn arguments' = .session level' →
      (run d arguments input).map Outcome.output = (run d arguments' input).map Outcome.output) ∧
    (replies d [] ls).length = (ls.takeWhile (· ≠ ascii "q")).length ∧
    (∀ earlier later, ls = earlier ++ later → ascii "q" ∉ earlier →
      (answers d (.initial level) ls = do
        let (texts, s) ← progress d (.initial level) earlier
        return texts ++ (← answers d s later)) ∧
      ∀ log, log.level = level → ∃ log',
        (progress d (.initial level) earlier).execute ⟨log, ()⟩ =
          (.ok (replies d [] earlier, after d level earlier), ⟨log', ()⟩) ∧
        log'.level = if earlier.count (ascii "t") % 2 = 1 then .trace else level) ∧
    (∀ earlier line later, ls = earlier ++ line :: later → ascii "q" ∉ earlier → line ≠ ascii "q" →
      (∀ text, (replies d [] ls)[earlier.length]? = some text ↔ Prints d earlier line text) ∧
      ∀ before m between x, line = ascii "l" → earlier = before ++ m :: between → Accepts d m x →
        (∀ m ∈ between, ∀ y, ¬Accepts d m y) →
        (replies d [] ls)[earlier.length]? = (replies d [] ls)[before.length]?) ∧
    ∀ earlier line later, ls = earlier ++ line :: later →
      line = ascii "?" ∨ line = ascii "l" ∨ (∃ e, Rejects d line e) →
      replies d [] (earlier ++ later) = (replies d [] ls).eraseIdx earlier.length ∧
      ∀ arguments input, request .warn arguments = .session level → HasLines input (earlier ++ later) →
        ∃ log, run d arguments input = .ok ⟨0,
          help ++ ((replies d [] ls).eraseIdx earlier.length).flatMap (prompt ++ ·) ++ prompt, log⟩ := by
  refine ⟨⟨rfl, rfl⟩, ⟨[ascii "--log-level", level.name], by cases level <;> rfl⟩, exists_run_eq d level ls,
    fun arguments arguments' level' input h h' => ?_, length_replies d [] ls,
    fun earlier later hls hq => ⟨?_, fun log hlog => ?_⟩,
    fun earlier line later hls hq hline => ⟨fun text => ?_, fun before m between x hl hearlier hm hbetween => ?_⟩,
    fun earlier line later hls hforgotten => ?_⟩
  · have hlines : HasLines input (lines input) := lines_eq_iff.1 rfl
    obtain ⟨log, -, hrun⟩ := exists_run_eq d level (lines input)
    obtain ⟨log', -, hrun'⟩ := exists_run_eq d level' (lines input)
    rw [hrun arguments input h hlines, hrun' arguments' input h' hlines]
    rfl
  · rw [hls]
    exact answers_append _ hq later
  · obtain ⟨log', hrun, hlog'⟩ : ∃ log', (progress d (after d level []) earlier).execute ⟨log, ()⟩ =
        (.ok (replies d [] earlier, after d level ([] ++ earlier)), ⟨log', ()⟩) ∧
          log'.level = levelAfter level ([] ++ earlier) := execute_progress hq hlog
    exact ⟨log', hrun, by simpa [levelAfter, tracingAfter] using hlog'⟩
  · rw [hls, getElem?_replies hq hline, List.nil_append, prints_iff hline, Option.some_inj]
  · have hprints : Prints d earlier line (ascii "\n" ++ d.shown x) := by
      rw [hl]
      exact .last hearlier hm hbetween
    rw [hls, getElem?_replies hq hline, List.nil_append, hprints.reply_eq]
    rw [hearlier] at hq ⊢
    obtain ⟨hbefore, hq'⟩ := not_or.1 (mt List.mem_append.2 hq)
    rw [List.append_assoc, List.cons_append,
      getElem?_replies hbefore (fun h => hq' (h ▸ List.mem_cons_self)), hm.reply_eq]
  · obtain ⟨hv, hq, ht⟩ : value? d line = none ∧ line ≠ ascii "q" ∧ line ≠ ascii "t" := by
      rcases hforgotten with rfl | rfl | ⟨e, he⟩
      · exact ⟨rfl, by decide, by decide⟩
      · exact ⟨rfl, by decide, by decide⟩
      · obtain ⟨-, hq, -, ht⟩ := ne_of_not_mem_commands he.1
        exact ⟨he.value?_eq, hq, ht⟩
    have hreplies : replies d [] (earlier ++ later) = (replies d [] ls).eraseIdx earlier.length := by
      rw [hls]
      exact replies_eraseIdx hq hv ht earlier later
    refine ⟨hreplies, fun arguments input h hlines => ?_⟩
    rw [← hreplies]
    obtain ⟨log, -, hrun⟩ := exists_run_eq d level (earlier ++ later)
    exact ⟨_, hrun arguments input h hlines⟩

/-- Whole numbers, in decimal and without a sign. -/
def Display.whole : Display Int :=
  ⟨⟨fun d => Decimal.ofDigits d, (· + ·), (· - ·), (· * ·), (· / ·), (- ·), fun x y => Int.pow x y.toNat⟩,
    fun x => decimal x.toNat⟩

/-- A product, a line that is rejected, a switch of the tracing, and the last value; then without the second line. -/
theorem session_remembers_of_rejected :
    let ls : List Bytes := [ascii "2*3", ascii "x", ascii "t", ascii "l"]
    request .warn [] = .session .warn ∧ request .warn [ascii "--log-level", ascii "trace"] = .session .trace ∧
      HasLines (ascii "2*3\nx\nt\nl\n") ls ∧
      Accepts Display.whole (ascii "2*3") 6 ∧ (∃ e, Rejects Display.whole (ascii "x") e) ∧
      (∃ log, run Display.whole [] (ascii "2*3\nx\nt\nl\n") = .ok ⟨0, help ++ (ascii "\n\n>> \n6" ++
        (ascii "\n\n>> \nError: expected one of '(', '-', 'a number', 'a space' at 0:0" ++
          (ascii "\n\n>> \nTracing on" ++ ascii "\n\n>> \n6"))) ++ ascii "\n\n>> ", log⟩) ∧
      (run Display.whole [] (ascii "2*3\nx\nt\nl\n")).map Outcome.output =
        (run Display.whole [ascii "--log-level", ascii "trace"] (ascii "2*3\nx\nt\nl\n")).map Outcome.output ∧
      Prints Display.whole [ascii "2*3", ascii "x", ascii "t"] (ascii "l") (ascii "\n6") ∧
      (replies Display.whole [] ls)[3]? = (replies Display.whole [] ls)[0]? ∧
      ∃ log, run Display.whole [] (ascii "2*3\nt\nl\n") = .ok ⟨0, help ++ (ascii "\n\n>> \n6" ++
        (ascii "\n\n>> \nTracing on" ++ ascii "\n\n>> \n6")) ++ ascii "\n\n>> ", log⟩ := by
  intro ls
  have haccepts : Accepts Display.whole (ascii "2*3") 6 := value?_eq_some_iff.1 rfl
  have hrejects : ∃ e, Rejects Display.whole (ascii "x") e := by
    obtain ⟨x, hx⟩ | he := accepts_or_rejects Display.whole (show ascii "x" ∉ commands by decide)
    · exact absurd hx (value?_eq_none_iff.1 rfl x)
    · exact he
  have hbetween : ∀ m ∈ [ascii "x", ascii "t"], ∀ y, ¬Accepts Display.whole m y := by
    refine List.forall_mem_cons.2 ⟨value?_eq_none_iff.1 rfl, List.forall_mem_singleton.2 ?_⟩
    exact value?_eq_none_iff.1 rfl
  have htexts : replies Display.whole [] ls = [ascii "\n6",
      ascii "\nError: expected one of '(', '-', 'a number', 'a space' at 0:0", ascii "\nTracing on", ascii "\n6"] := rfl
  obtain ⟨-, -, ⟨log, -, hrun⟩, hlevel, -, -, hprints, hforgotten⟩ := session_remembers Display.whole .warn ls
  obtain ⟨hlast, hvalue⟩ := hprints [ascii "2*3", ascii "x", ascii "t"] (ascii "l") [] rfl (by decide) (by decide)
  obtain ⟨-, hforgotten⟩ :=
    hforgotten [ascii "2*3"] (ascii "x") [ascii "t", ascii "l"] rfl (.inr (.inr hrejects))
  rw [htexts] at hrun hforgotten
  exact ⟨rfl, rfl, lines_eq_iff.1 rfl, haccepts, hrejects, ⟨_, hrun [] _ rfl (lines_eq_iff.1 rfl)⟩,
    hlevel _ _ .trace _ rfl rfl, (hlast _).1 rfl,
    hvalue [] (ascii "2*3") [ascii "x", ascii "t"] 6 rfl rfl haccepts hbetween,
    hforgotten [] _ rfl (lines_eq_iff.1 rfl)⟩

end Furthest.Console
