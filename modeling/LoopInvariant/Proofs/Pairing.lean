import LoopInvariant.Proofs.Killing
import LoopInvariant.Proofs.PipeCommands
/-!
# Replies are paired with requests

A solver prints what it likes and when it likes, as long as it prints the marker on a line of its
own when it is asked to, and at no other time. Everything that it prints is then cut by the markers
into replies. What a request is told is the reply that its own marker ends, so a request that fails
on what it is told leaves the later ones theirs. What the solver prints is not read off the pipe: it
is what the solver prints when it reads, from its start, everything that was written.
-/

namespace LoopInvariant.Solver

namespace Peer

/-! ## Solvers whose output is not read -/

/-- A solver that has printed some lines before and nobody has read them. -/
def after (p : Peer) (earlier : List String) : Peer := { p with output := earlier ++ p.output }

variable {p : Peer} {earlier : List String}

theorem say_after (p : Peer) (earlier : List String) (text : String) :
    (p.after earlier).say text = (p.say text).after earlier := by
  rw [say, say]
  split
  · rfl
  · simp only [after, List.append_assoc]

theorem answer_after (p : Peer) (earlier : List String) :
    (p.after earlier).answer = p.answer.after earlier := by
  rw [answer, answer, show (p.after earlier).script = p.script from rfl]
  split
  · exact say_after p earlier _
  · next rest _ => exact say_after { p with script := rest } earlier _
  · next rest _ => exact say_after { p with script := rest, mood := .leaving } earlier _
  · rfl

theorem echo_after (p : Peer) (earlier : List String) (text : String) :
    (p.after earlier).echo text = (p.echo text).after earlier := by
  rw [echo, echo, show (p.after earlier).mood = p.mood from rfl]
  dsimp only
  split
  · simp only [after, List.append_assoc]
    rfl
  · rfl
  · rfl

def noted (p : Peer) (line : String) : Peer :=
  ({ p with received := line :: p.received } : Peer).say (p.remarks (line :: p.received))

theorem readLine_eq (p : Peer) (line : String) :
    p.readLine line =
      if !p.alive || p.stuck then p
      else if isQuery line.toList then (p.noted line).answer
      else (echo? line.toList).elim (p.noted line) (p.noted line).echo := by
  rw [readLine]
  cases echo? line.toList <;> rfl

/-- What a solver does next does not depend on whether its output was read. -/
theorem readLine_after (p : Peer) (earlier : List String) (line : String) :
    (p.after earlier).readLine line = (p.readLine line).after earlier := by
  have hnoted : (p.after earlier).noted line = (p.noted line).after earlier :=
    say_after { p with received := line :: p.received } earlier _
  rw [readLine_eq, readLine_eq, hnoted, answer_after]
  show (if !p.alive || p.stuck then _ else _) = _
  split
  · rfl
  · split
    · rfl
    · cases echo? line.toList with
      | none => rfl
      | some text => exact echo_after _ _ text

theorem read_after (p : Peer) (earlier : List String) (text : String) :
    (p.after earlier).read text = (p.read text).after earlier := by
  have hlines : ∀ ls : List String,
      ls.foldl readLine (p.after earlier) = (ls.foldl readLine p).after earlier := by
    intro ls
    induction ls generalizing p with
    | nil => rfl
    | cons l ls ih => rw [List.foldl_cons, List.foldl_cons, readLine_after, ih]
  exact hlines _

/-! ## Replies -/

def Unmarked (ls : List String) : Prop := ∀ l ∈ ls, isMarker l = false

instance (ls : List String) : Decidable (Unmarked ls) :=
  inferInstanceAs (Decidable (∀ l ∈ ls, isMarker l = false))

/-- The replies in an output: what stands before a marker and after the one before it. -/
def replies (out : List String) : List String :=
  (out.splitOnP isMarker).dropLast.map fun block => Text.trimEnd (Text.unlines block)

/-- An output that ends with a marker, if there is any. -/
def Complete (out : List String) : Prop :=
  out = [] ∨ ∃ before m, out = before ++ [m] ∧ isMarker m = true

variable {out ls : List String}

theorem Unmarked.append (h : Unmarked out) (h' : Unmarked ls) : Unmarked (out ++ ls) :=
  fun l hl => (List.mem_append.1 hl).elim (h l) (h' l)

theorem splitOnP_append (h : Complete out) (hls : Unmarked ls) :
    (out ++ ls).splitOnP isMarker = (out.splitOnP isMarker).dropLast ++ [ls] := by
  rcases h with rfl | ⟨before, m, rfl, hm⟩
  · exact List.splitOnP_eq_singleton hls
  · rw [List.append_assoc, List.singleton_append, List.splitOnP_append_cons before ls hm,
      List.splitOnP_append_cons before [] hm, List.splitOnP_eq_singleton hls]
    exact congrArg (· ++ [ls]) List.dropLast_concat.symm

theorem replies_append (h : Complete out) (hls : Unmarked ls) :
    replies (out ++ ls) = replies out := by
  rw [replies, splitOnP_append h hls, List.dropLast_concat, replies]

theorem replies_marker (h : Complete out) (hls : Unmarked ls) {m : String}
    (hm : isMarker m = true) :
    replies (out ++ (ls ++ [m])) = replies out ++ [Text.trimEnd (Text.unlines ls)] := by
  rw [replies, ← List.append_assoc, List.splitOnP_append_cons (out ++ ls) [] hm,
    splitOnP_append h hls]
  rw [show ([] : List String).splitOnP isMarker = [[]] from rfl, List.dropLast_concat,
    List.map_append]
  rfl

/-! ## Solvers that keep to the marker -/

/-- Whether a line asks for the marker as if it ended a reply. -/
def asksForMarker (line : String) : Bool :=
  (echo? line.toList).any fun text => isMarker text || isMarker ("\"" ++ text ++ "\"")

/-- A solver that answers every query, and that has not printed the marker on its own and will not
do so. -/
structure Polite (p : Peer) : Prop where
  alive : p.alive = true
  unstuck : p.stuck = false
  answering : p.mood = .answering
  script : ∀ r ∈ p.script, ∃ text, r = .say text ∧ Unmarked (Text.lines text)
  remarks : ∀ received, Unmarked (Text.lines (p.remarks received))
  output : Unmarked p.output

theorem Polite.received (h : p.Polite) (ls ls' : List String) :
    Polite { p with received := ls, receivedAtEcho := ls' } :=
  ⟨h.alive, h.unstuck, h.answering, h.script, h.remarks, h.output⟩

theorem Polite.say (h : p.Polite) {text : String} (htext : Unmarked (Text.lines text)) :
    (p.say text).Polite := by
  rw [Peer.say]
  split
  · exact h
  · exact ⟨h.alive, h.unstuck, h.answering, h.script, h.remarks, h.output.append htext⟩

theorem Polite.answer (h : p.Polite) : p.answer.Polite := by
  have hscript := h.script
  rw [Peer.answer]
  split
  · refine h.say fun l hl => ?_
    revert l
    decide +kernel
  · next text rest heq =>
    rw [heq] at hscript
    have hrest : Polite { p with script := rest } :=
      ⟨h.alive, h.unstuck, h.answering, fun r hr => hscript r (.tail _ hr), h.remarks, h.output⟩
    obtain ⟨_, hsay, htext⟩ := hscript (.say text) List.mem_cons_self
    cases hsay
    exact hrest.say htext
  · next text rest heq =>
    obtain ⟨_, hsay, -⟩ := hscript (.leave text) (heq ▸ List.mem_cons_self)
    cases hsay
  · next rest heq =>
    obtain ⟨_, hsay, -⟩ := hscript .hang (heq ▸ List.mem_cons_self)
    cases hsay

theorem Polite.echo_eq (h : p.Polite) (text : String) :
    p.echo text =
      { p with receivedAtEcho := p.received
               output := p.output ++ [if p.quotes then "\"" ++ text ++ "\"" else text] } := by
  rw [echo]
  dsimp only
  rw [h.answering]

theorem Polite.noted (h : p.Polite) (line : String) : (p.noted line).Polite :=
  (h.received (line :: p.received) p.receivedAtEcho).say (h.remarks _)

theorem Polite.readLine_eq (h : p.Polite) (line : String) :
    p.readLine line =
      if isQuery line.toList then (p.noted line).answer
      else (echo? line.toList).elim (p.noted line) (p.noted line).echo := by
  rw [Peer.readLine_eq, h.alive, h.unstuck]
  rfl

theorem Polite.readLine (h : p.Polite) {line : String} (hline : asksForMarker line = false) :
    (p.readLine line).Polite := by
  have hnoted := h.noted line
  rw [h.readLine_eq]
  split
  · exact hnoted.answer
  · cases hecho : echo? line.toList with
    | none => exact hnoted
    | some text =>
      rw [asksForMarker, hecho, Option.any_some, Bool.or_eq_false_iff] at hline
      rw [Option.elim_some, hnoted.echo_eq]
      refine ⟨hnoted.alive, hnoted.unstuck, hnoted.answering, hnoted.script,
        hnoted.remarks, hnoted.output.append fun l hl => ?_⟩
      rw [List.mem_singleton.1 hl]
      split
      · exact hline.2
      · exact hline.1

theorem Polite.read (h : p.Polite) {text : String}
    (htext : ∀ line ∈ Text.lines text, asksForMarker line = false) : (p.read text).Polite := by
  rw [Peer.read]
  generalize Text.lines text = ls at htext
  induction ls generalizing p with
  | nil => exact h
  | cons l ls ih =>
    exact ih (h.readLine (htext l List.mem_cons_self)) fun l' hl' =>
      htext l' (List.mem_cons_of_mem _ hl')

theorem isMarker_echo (quotes : Bool) :
    isMarker (if quotes then "\"" ++ marker ++ "\"" else marker) = true := by
  cases quotes <;> decide +kernel

theorem Polite.read_markerCommand (h : p.Polite) :
    ∃ block m, (p.read markerCommand).output = block ++ [m] ∧ Unmarked block ∧
      isMarker m = true ∧ Polite { p.read markerCommand with output := [] } := by
  have hlines : Text.lines markerCommand = [markerCommand] := by decide +kernel
  have hquery : ¬ isQuery markerCommand.toList = true := by decide +kernel
  have hecho : echo? markerCommand.toList = some marker := by decide +kernel
  have hnoted := h.noted markerCommand
  rw [Peer.read, hlines, List.foldl_cons, List.foldl_nil, h.readLine_eq, if_neg hquery, hecho,
    Option.elim_some]
  rw [hnoted.echo_eq]
  refine ⟨(p.noted markerCommand).output, _, rfl, hnoted.output, isMarker_echo _, hnoted.alive,
    hnoted.unstuck, hnoted.answering, hnoted.script, hnoted.remarks, fun l hl => ?_⟩
  cases hl

end Peer

def Event.text? : Event → Option String
  | .command x => some x.print
  | .marker => some Peer.markerCommand
  | _ => none

namespace Pipe

open Peer (Polite Complete)

def Plain (x : Sexp) : Prop := ∀ line ∈ Text.lines x.print, Peer.asksForMarker line = false

instance (x : Sexp) : Decidable (Plain x) :=
  inferInstanceAs (Decidable (∀ line ∈ Text.lines x.print, Peer.asksForMarker line = false))

def written (p : Pipe) : List String := p.history.reverse.filterMap Event.text?

def replies (start : Peer) (p : Pipe) : List String :=
  Peer.replies (p.written.foldl Peer.read start).output

theorem written_event (p : Pipe) (e : Event) :
    written { p with history := e :: p.history } = p.written ++ e.text?.toList := by
  cases e <;> simp [written, Event.text?]

/-! ## One request after another -/

/-- Nobody kills the solver, and what can still be read from it is what it printed since the last
marker. There was one reply for each marker that was asked for. -/
structure Paired (start : Peer) (p : Pipe) : Prop where
  quiet : p.Quiet
  polite : p.peer.Polite
  unread : ∃ earlier, Complete earlier ∧
    p.written.foldl Peer.read start = p.peer.after earlier
  length_eq : (replies start p).length = p.history.count .marker

/-- An action that writes some texts, gets some replies and comes to a result. -/
structure Hears {α : Type} (start : Peer) (a : Action α) (p : Pipe) (texts new : List String)
    (r : Except SolverError α) : Prop where
  result : (a p).1 = r
  written_eq : (a p).2.written = p.written ++ texts
  replies_eq : replies start (a p).2 = replies start p ++ new
  paired : Paired start (a p).2

variable {α β : Type} {start : Peer} {p : Pipe} {a : Action α} {f : α → Action β} {v : α}
  {texts texts' new new' : List String} {r : Except SolverError α} {r' : Except SolverError β}

theorem Hears.of_eq {q : Pipe} (h : a p = (r, q)) (hwritten : q.written = p.written ++ texts)
    (hreplies : replies start q = replies start p ++ new) (hpaired : Paired start q) :
    Hears start a p texts new r := by
  refine ⟨?_, ?_, ?_, ?_⟩ <;> rw [h]
  · exact hwritten
  · exact hreplies
  · exact hpaired

/-- An action that leaves the solver and what was written alone. -/
theorem Paired.hears (h : Paired start p) {q : Pipe} (hrun : a p = (r, q)) (hquiet : q.Quiet)
    (hpeer : q.peer = p.peer) (hhistory : q.history = p.history) : Hears start a p [] [] r := by
  have hwritten : q.written = p.written := congrArg (·.reverse.filterMap Event.text?) hhistory
  have hreplies : replies start q = replies start p := by rw [replies, hwritten, replies]
  refine .of_eq hrun ?_ ?_ ⟨hquiet, hpeer ▸ h.polite, ?_, ?_⟩
  · rw [hwritten, List.append_nil]
  · rw [hreplies, List.append_nil]
  · rw [hwritten, hpeer]
    exact h.unread
  · rw [hreplies, hhistory]
    exact h.length_eq

theorem Paired.hears_result (h : Paired start p) (hrun : a p = (r, p)) :
    Hears start a p [] [] r := h.hears hrun h.quiet rfl rfl

theorem Hears.bind (ha : Hears start a p texts new (.ok v))
    (hf : Hears start (f v) (a p).2 texts' new' r') :
    Hears start (a >>= f) p (texts ++ texts') (new ++ new') r' := by
  have hrun : (a >>= f) p = f v (a p).2 := Stateful.bind_of_ok (Prod.ext ha.result rfl)
  refine .of_eq (hrun.trans (Prod.ext hf.result rfl)) ?_ ?_ hf.paired
  · rw [hf.written_eq, ha.written_eq, List.append_assoc]
  · rw [hf.replies_eq, ha.replies_eq, List.append_assoc]

theorem Hears.bind_result (ha : Hears start a p texts new (.ok v))
    (hf : f v (a p).2 = (r', (a p).2)) : Hears start (a >>= f) p texts new r' :=
  .of_eq ((Stateful.bind_of_ok (Prod.ext ha.result rfl)).trans hf) ha.written_eq ha.replies_eq
    ha.paired

theorem Hears.bind_error {e : SolverError} (ha : Hears start a p texts new (.error e)) :
    Hears start (a >>= f) p texts new (.error e) :=
  .of_eq (Stateful.bind_of_error (Prod.ext ha.result rfl)) ha.written_eq ha.replies_eq ha.paired

theorem Hears.attempt (ha : Hears start a p texts new r) :
    Hears start (attempt a) p texts new (.ok r) :=
  .of_eq (show Pipe.attempt a p = (.ok r, (a p).2) from ha.result ▸ rfl) ha.written_eq
    ha.replies_eq ha.paired

theorem Hears.map (ha : Hears start a p texts new r) (g : α → β) :
    Hears start (g <$> a) p texts new (r.map g) :=
  .of_eq (ha.result ▸ Stateful.map_run g a p) ha.written_eq ha.replies_eq ha.paired

/-! ## The requests -/

/-- An action that writes something and reads what was printed by then, if it ends with a marker. -/
theorem Paired.hears_event (h : Paired start p) (gone : List String) {q : Pipe} {event : Event}
    {text : String} (hrun : a p = (r, q)) (hquiet : q.Quiet) (hpolite : q.peer.Polite)
    (hhistory : q.history = event :: p.history) (htext : event.text? = some text)
    (hpeer : p.peer.read text = q.peer.after gone)
    (hgone : ∀ earlier, Complete earlier → Complete (earlier ++ gone) ∧
      Peer.replies (earlier ++ gone) = Peer.replies earlier ++ new)
    (hlength : [event].count .marker = new.length) : Hears start a p [text] new r := by
  obtain ⟨earlier, hcomplete, hunread⟩ := h.unread
  obtain ⟨hcomplete', hnew⟩ := hgone earlier hcomplete
  have hwritten : q.written = p.written ++ [text] := by
    have hevent := written_event p event
    rw [htext] at hevent
    exact (congrArg (·.reverse.filterMap Event.text?) hhistory).trans hevent
  have hread : q.written.foldl Peer.read start = q.peer.after (earlier ++ gone) := by
    rw [hwritten, List.foldl_append, hunread]
    show (p.peer.after earlier).read text = _
    rw [Peer.read_after, hpeer, Peer.after, Peer.after, Peer.after, List.append_assoc]
  have hreplies : replies start q = replies start p ++ new := by
    have hbefore := Peer.replies_append hcomplete h.polite.output
    have hafter := Peer.replies_append hcomplete' hpolite.output
    rw [replies, hread, replies, hunread]
    exact hafter.trans (hnew.trans (congrArg (· ++ new) hbefore.symm))
  refine .of_eq hrun hwritten hreplies ⟨hquiet, hpolite, ⟨_, hcomplete', hread⟩, ?_⟩
  have hcount : q.history.count .marker = p.history.count .marker + new.length := by
    rw [hhistory, ← List.singleton_append, List.count_append, hlength, Nat.add_comm]
  rw [hreplies, List.length_append, h.length_eq, hcount]

theorem hears_send (h : Paired start p) {x : Sexp} (hx : Plain x) :
    Hears start (send x) p [x.print] [] (.ok ()) := by
  have hquiet := h.quiet
  refine h.hears_event [] (hquiet.send h.polite.alive x)
    (hquiet.congr rfl rfl) (h.polite.read hx) rfl rfl rfl ?_ rfl
  intro earlier hcomplete
  rw [List.append_nil, List.append_nil]
  exact ⟨hcomplete, rfl⟩

/-- Everything that was printed since the last marker is read, up to the marker. -/
theorem hear_of_output {block : List String} {m : String} (hblock : Peer.Unmarked block)
    (hm : Peer.isMarker m = true) (hout : p.peer.output = block ++ [m]) :
    p.hear = (.answer (Text.trimEnd (Text.unlines block)),
      { p with peer := { p.peer with output := [] } }) := by
  have htake : p.peer.output.takeWhile (fun l => !Peer.isMarker l) = block := by
    rw [hout, List.takeWhile_append_of_pos (by simpa [Peer.Unmarked] using hblock)]
    simp [hm]
  have hdrop : p.peer.output.dropWhile (fun l => !Peer.isMarker l) = [m] := by
    rw [hout, List.dropWhile_append_of_pos (by simpa [Peer.Unmarked] using hblock)]
    simp [hm]
  rw [hear, htake, hdrop]

theorem hears_response (h : Paired start p) :
    ∃ text, Hears start response p [Peer.markerCommand] [text] (.ok text) := by
  obtain ⟨block, m, hout, hblock, hm, hpolite⟩ := h.polite.read_markerCommand
  let asked : Pipe :=
    { p with peer := p.peer.read Peer.markerCommand, history := .marker :: p.history }
  have hasked : asked.Quiet := h.quiet.congr rfl rfl
  have hlisten : listen asked = (.ok (.answer (Text.trimEnd (Text.unlines block))),
      { asked with peer := { asked.peer with output := [] } }) := by
    rw [listen, step, hasked.interrupt, hear_of_output hblock hm hout]
  have hrun : response p = (.ok (Text.trimEnd (Text.unlines block)),
      { asked with peer := { asked.peer with output := [] } }) := by
    rw [response, Stateful.bind_of_ok (h.quiet.write h.polite.alive _ _)]
    exact Stateful.bind_of_ok hlisten
  refine ⟨_, h.hears_event (block ++ [m]) hrun
    (hasked.congr rfl rfl) hpolite rfl rfl ?_ ?_ rfl⟩
  · show _ = Peer.after { p.peer.read Peer.markerCommand with output := [] } (block ++ [m])
    rw [Peer.after, List.append_nil, ← hout]
  · intro earlier hcomplete
    refine ⟨.inr ⟨earlier ++ block, m, ?_, hm⟩, Peer.replies_marker hcomplete hblock hm⟩
    rw [List.append_assoc]

theorem hears_setInQuery (h : Paired start p) (inQuery : Bool) :
    Hears start (setInQuery inQuery) p [] [] (.ok ()) := by
  have hrunning : p.interrupt.status.isRunning = true := by
    rw [h.quiet.interrupt]
    exact h.quiet.running
  refine h.hears (setInQuery_of_running hrunning inQuery) ?_ ?_ ?_
  · rw [h.quiet.interrupt]
    exact ⟨rfl, h.quiet.before_eq, h.quiet.silent_eq⟩
  · rw [h.quiet.interrupt]
  · rw [h.quiet.interrupt]

theorem hears_save (h : Paired start p) : ∃ name, Hears start save p [] [] (.ok name) := by
  have hquiet := h.quiet
  cases htranscript : p.transcript with
  | none =>
    refine ⟨none, h.hears_result ?_⟩
    rw [save, step, hquiet.interrupt, htranscript]
  | some t =>
    refine ⟨t.save.1, h.hears (q := { p with transcript := some t.save.2 }) ?_
      (hquiet.congr rfl rfl) rfl rfl⟩
    rw [save, step, hquiet.interrupt, htranscript]

theorem hears_annotate (h : Paired start p) (note : String) :
    Hears start (annotate note) p [] [] (.ok ()) := by
  have hquiet := h.quiet
  refine h.hears (q := { p with transcript := p.transcript.map (·.annotate note) }) ?_
    (hquiet.congr rfl rfl) rfl rfl
  rw [annotate, step, hquiet.interrupt]

def readReply (text : String) : Except SolverError Sexp :=
  if "(error".toList.isPrefixOf text.toList then .error (.unexpectedClose (errorReport text))
  else
    match Sexp.read text with
    | .ok y => .ok y
    | .error e => .error (.parse text e.message)

def attributeValue (name : String) (y : Sexp) : Except SolverError Sexp :=
  match y with
  | .list [.sym key, value] =>
    if key = name then .ok value else .error (.parse y.print ("expected (" ++ name ++ " value)"))
  | _ => .error (.parse y.print ("expected (" ++ name ++ " value)"))

theorem attributeValue_pair (name key : String) (value : Sexp) :
    attributeValue name (.list [.sym key, value]) =
      if key = name then .ok value
      else .error (.parse (Sexp.list [.sym key, value]).print
        ("expected (" ++ name ++ " value)")) := rfl

theorem attributeValue_of_ne {name : String} {y : Sexp}
    (h : ∀ key value, y = .list [.sym key, value] → False) :
    attributeValue name y = .error (.parse y.print ("expected (" ++ name ++ " value)")) := by
  rw [attributeValue.eq_def]
  split
  · exact absurd rfl (h _ _)
  · rfl

def readInfo (name text : String) : Except SolverError Sexp :=
  (readReply text).bind (attributeValue name)

/-- The answer that a reply gives, if it does not call for a reason. -/
def readVerdict (text : String) : Except SolverError SatAnswer :=
  if text = "sat" then .ok .sat
  else if text = "unsat" then .ok .unsat
  else .error (.unexpectedClose (errorReport text))

theorem hears_reading (h : Paired start p) :
    ∃ text, Hears start reading p [Peer.markerCommand] [text] (readReply text) := by
  obtain ⟨text, hresponse⟩ := hears_response h
  refine ⟨text, hresponse.bind_result ?_⟩
  rw [readReply]
  by_cases herror : "(error".toList.isPrefixOf text.toList = true
  · rw [if_pos herror, if_pos herror]
    rfl
  · rw [if_neg herror, if_neg herror]
    cases Sexp.read text <;> rfl

theorem hears_ask (h : Paired start p) {x : Sexp} (hx : Plain x) :
    ∃ text, Hears start (ask x) p [x.print, Peer.markerCommand] [text] (readReply text) := by
  have hsend := hears_send h hx
  obtain ⟨text, hreading⟩ := hears_reading hsend.paired
  exact ⟨text, hsend.bind hreading⟩

theorem hears_info (h : Paired start p) {name : String}
    (hname : Plain (.app "get-info" [.sym name])) :
    ∃ text, Hears start (info name) p
      [(Sexp.app "get-info" [.sym name]).print, Peer.markerCommand] [text]
      (readInfo name text) := by
  obtain ⟨text, hask⟩ := hears_ask h hname
  refine ⟨text, ?_⟩
  rw [info, readInfo]
  cases hreply : readReply text with
  | error e =>
    rw [hreply] at hask
    exact hask.bind_error
  | ok y =>
    rw [hreply] at hask
    refine hask.bind_result ?_
    show _ = (attributeValue name y, _)
    split
    · next key value =>
      rw [attributeValue_pair]
      by_cases hkey : key = name
      · rw [if_pos hkey, if_pos hkey]
        rfl
      · rw [if_neg hkey, if_neg hkey]
        rfl
    · next hother =>
      rw [attributeValue_of_ne hother]
      rfl

theorem hears_query (h : Paired start p) {read : String → Except SolverError α}
    (ha : ∀ q, Paired start q → ∃ text, Hears start a q texts [text] (read text))
    (g : Except SolverError α → Action β) :
    ∃ text q, Paired start q ∧ ∀ texts' new' r', Hears start (g (read text)) q texts' new' r' →
      Hears start (query a g) p (texts ++ texts') (text :: new') r' := by
  have henter := hears_setInQuery h true
  obtain ⟨text, hbody⟩ := ha _ henter.paired
  have hleave := hears_setInQuery hbody.paired false
  refine ⟨text, _, hleave.paired, fun texts' new' r' hrest => ?_⟩
  exact henter.bind (hbody.attempt.bind (hleave.bind hrest))

theorem hears_values (h : Paired start p) {names : List String} (hnames : names ≠ [])
    (hplain : Plain (.app "get-value" [.list (names.map .sym)])) :
    ∃ text, Hears start (values names) p
      [(Sexp.app "get-value" [.list (names.map .sym)]).print, Peer.markerCommand] [text]
      (readReply text) := by
  rw [values_eq hnames]
  obtain ⟨text, q, hq, hquery⟩ := hears_query h (fun q hq => hears_ask hq hplain)
    fun answer p => (answer, p)
  exact ⟨text, hquery [] [] _ (hq.hears_result rfl)⟩

theorem hears_interpret (h : Paired start p) {text : String} (htext : text ≠ "unknown") :
    Hears start (interpret (.ok text)) p [] [] (readVerdict text) := by
  have hlift : checkSat.liftExcept (.ok text) p = (.ok text, p) := rfl
  refine h.hears_result ?_
  rw [interpret, Stateful.bind_of_ok hlift, readVerdict]
  split
  · rfl
  · rfl
  · exact absurd rfl htext
  · next hsat hunsat _ =>
    rw [if_neg hsat, if_neg hunsat]
    rfl

theorem hears_interpret_unknown (h : Paired start p) :
    ∃ text, Hears start (interpret (.ok "unknown")) p
      [(Sexp.app "get-info" [.sym ":reason-unknown"]).print, Peer.markerCommand] [text]
      ((readInfo ":reason-unknown" text).map fun reason => .unknown reason.print) := by
  have hplain : Plain (.app "get-info" [.sym ":reason-unknown"]) := by decide +kernel
  obtain ⟨text, hinfo⟩ := hears_info h hplain
  have hlift : Hears start (checkSat.liftExcept (.ok "unknown")) p [] [] (.ok "unknown") :=
    h.hears_result rfl
  refine ⟨text, hlift.bind ?_⟩
  cases hread : readInfo ":reason-unknown" text with
  | error e =>
    rw [hread] at hinfo
    exact hinfo.bind_error
  | ok reason =>
    rw [hread] at hinfo
    obtain ⟨name, hsave⟩ := hears_save hinfo.paired
    exact hinfo.bind (hsave.bind (hsave.paired.hears_result rfl))

/-- What the check for satisfiability is told: one reply, and a second if the first is "unknown". -/
inductive CheckHears (start : Peer) (p : Pipe) : Prop where
  | answered (text : String) (htext : text ≠ "unknown")
    (h : Hears start checkSat p [(Sexp.app "check-sat" []).print, Peer.markerCommand] [text]
      (readVerdict text))
  | unknown (text : String)
    (h : Hears start checkSat p
      [(Sexp.app "check-sat" []).print, Peer.markerCommand,
        (Sexp.app "get-info" [.sym ":reason-unknown"]).print, Peer.markerCommand]
      ["unknown", text]
      ((readInfo ":reason-unknown" text).map fun reason => .unknown reason.print))

theorem hears_checkSat (h : Paired start p) : CheckHears start p := by
  have hplain : Plain (.app "check-sat" []) := by decide +kernel
  have hsend := hears_send h hplain
  obtain ⟨text, q, hq, hquery⟩ := hears_query hsend.paired (fun q hq => hears_response hq) interpret
  by_cases htext : text = "unknown"
  · subst htext
    obtain ⟨reason, hreason⟩ := hears_interpret_unknown hq
    refine .unknown reason ?_
    rw [checkSat_eq]
    exact hsend.bind (hquery _ _ _ hreason)
  · refine .answered text htext ?_
    rw [checkSat_eq]
    exact hsend.bind (hquery [] [] _ (hears_interpret hq htext))

/-! ## Runs -/

def Op.command? : Op → Option Sexp
  | .send x => some x
  | .push => some (.app "push" [.num 1])
  | .pop => some (.app "pop" [.num 1])
  | .declare name sort => some (.app "declare-const" [.sym name, .sym sort])
  | .assert formula => some (.app "assert" [formula])
  | .checkSat => some (.app "check-sat" [])
  | .values names => some (.app "get-value" [.list (names.map .sym)])
  | .info name => some (.app "get-info" [.sym name])
  | .save | .annotate _ | .close => none

def Op.isSilent : Op → Bool
  | .checkSat | .info _ | .close => false
  | .values names => names.isEmpty
  | _ => true

theorem hears_silent (h : Paired start p) {op : Op} (hop : op.isSilent = true)
    (hplain : ∀ x, op.command? = some x → Plain x) :
    ∃ texts, Hears start op.run p texts [] (.ok ()) := by
  cases op with
  | send x => exact ⟨_, hears_send h (hplain _ rfl)⟩
  | push => exact ⟨_, hears_send h (hplain _ rfl)⟩
  | pop => exact ⟨_, hears_send h (hplain _ rfl)⟩
  | declare name sort => exact ⟨_, hears_send h (hplain _ rfl)⟩
  | assert formula => exact ⟨_, hears_send h (hplain _ rfl)⟩
  | checkSat => cases hop
  | values names =>
    rw [Op.isSilent, List.isEmpty_iff] at hop
    subst hop
    exact ⟨_, h.hears_result rfl⟩
  | info name => cases hop
  | save =>
    obtain ⟨name, hsave⟩ := hears_save h
    exact ⟨_, hsave.map _⟩
  | annotate note => exact ⟨_, hears_annotate h note⟩
  | close => cases hop

/-- Whatever an operation makes of the replies that it gets, the pairing is kept. -/
theorem Paired.run (h : Paired start p) {op : Op} (hop : op ≠ .close)
    (hplain : ∀ x, op.command? = some x → Plain x) : Paired start (op.run p).2 := by
  by_cases hsilent : op.isSilent = true
  · obtain ⟨texts, hhears⟩ := hears_silent h hsilent hplain
    exact hhears.paired
  · cases op with
    | checkSat =>
      rcases hears_checkSat h with ⟨text, -, hhears⟩ | ⟨text, hhears⟩
      · exact (hhears.map _).paired
      · exact (hhears.map _).paired
    | values names =>
      have hnames : names ≠ [] := fun heq => hsilent (List.isEmpty_iff.2 heq)
      obtain ⟨text, hhears⟩ := hears_values h hnames (hplain _ rfl)
      exact (hhears.map _).paired
    | info name =>
      obtain ⟨text, hhears⟩ := hears_info h (hplain _ rfl)
      exact (hhears.map _).paired
    | close => exact absurd rfl hop
    | _ => exact absurd rfl hsilent

theorem Paired.runAll (h : Paired start p) {ops : List Op} (hops : .close ∉ ops)
    (hplain : ∀ x ∈ ops.filterMap Op.command?, Plain x) :
    Paired start (ops.foldl (fun p op => (op.run p).2) p) := by
  induction ops generalizing p with
  | nil => exact h
  | cons op ops ih =>
    refine ih (h.run (fun heq => hops (heq ▸ List.mem_cons_self)) fun x hx => ?_)
      (fun hmem => hops (List.mem_cons_of_mem _ hmem)) fun x hx => ?_
    · exact hplain x (List.mem_filterMap.2 ⟨op, List.mem_cons_self, hx⟩)
    · obtain ⟨op', hop', hx⟩ := List.mem_filterMap.1 hx
      exact hplain x (List.mem_filterMap.2 ⟨op', List.mem_cons_of_mem _ hop', hx⟩)

end Pipe

def Launch.commands (l : Launch) : List Sexp :=
  .app "set-option" [.sym ":produce-models", .sym "true"] ::
    (l.options.map (fun option => .app "set-option" [.sym (":" ++ option.1), .sym option.2]) ++
      [.app "set-logic" [.sym l.logic]])

namespace Pipe

theorem hears_options (h : Paired start p) (options : List (String × String))
    (hplain : ∀ option ∈ options,
      Plain (.app "set-option" [.sym (":" ++ option.1), .sym option.2])) :
    ∃ texts, Hears start (options.forM fun option =>
      send (.app "set-option" [.sym (":" ++ option.1), .sym option.2])) p texts [] (.ok ()) := by
  induction options generalizing p with
  | nil => exact ⟨[], h.hears_result rfl⟩
  | cons option options ih =>
    have hsend := hears_send h (hplain option List.mem_cons_self)
    obtain ⟨texts, hrest⟩ := ih hsend.paired fun o ho => hplain o (List.mem_cons_of_mem _ ho)
    exact ⟨_, hsend.bind hrest⟩

theorem exists_launch {programs : String → Option Peer} {l : Launch}
    (hprogram : programs l.program = some start) (hstart : start.Polite)
    (hplain : ∀ x ∈ l.commands, Plain x) (transcript : Option Transcript) :
    ∃ p₀, launch programs l transcript = .ok p₀ ∧ Paired start p₀ := by
  let fresh : Pipe :=
    { peer := start, transcript := transcript.map (·.append (.comment l.commandLine)) }
  have hreplies : replies start fresh = [] := Peer.replies_append (.inl rfl) hstart.output
  have hfresh : Paired start fresh :=
    ⟨⟨rfl, rfl, rfl⟩, hstart, ⟨[], .inl rfl, rfl⟩, congrArg List.length hreplies⟩
  rw [Launch.commands] at hplain
  have hfirst := hears_send hfresh (hplain _ List.mem_cons_self)
  obtain ⟨texts, hoptions⟩ := hears_options hfirst.paired l.options
    fun option hoption => hplain _ (List.mem_cons_of_mem _
      (List.mem_append_left _ (List.mem_map.2 ⟨option, hoption, rfl⟩)))
  have hlogic := hears_send (x := .app "set-logic" [.sym l.logic]) hoptions.paired
    (hplain _ (by simp))
  have hgreeting : Hears start (greeting l) fresh _ _ (.ok ()) :=
    hfirst.bind (hoptions.bind hlogic)
  exact ⟨(greeting l fresh).2, launch_of_greeting hprogram (Prod.ext hgreeting.result rfl),
    hgreeting.paired⟩

end Pipe

open Pipe

/-- Replies stay paired with requests. A solver that answers every query, and prints the marker when
it is asked to and at no other time, can be started. Then after any operations whose commands do not
themselves ask for the marker, there was one reply for each marker that was asked for. A request
writes its command and asks for the marker; it is told exactly the text between the marker before
and this one, and all that it returns or fails with is read off that text. An operation without a
reply takes none. -/
theorem replies_paired {programs : String → Option Peer} {l : Launch} {start : Peer}
    (hprogram : programs l.program = some start) (hstart : start.Polite)
    (hplain : ∀ x ∈ l.commands, Plain x) (transcript : Option Transcript) :
    ∃ p₀, launch programs l transcript = .ok p₀ ∧ ∀ ops : List Op, .close ∉ ops →
      (∀ x ∈ ops.filterMap Op.command?, Plain x) →
      let p := ops.foldl (fun p op => (op.run p).2) p₀
      (replies start p).length = p.history.count .marker ∧
      CheckHears start p ∧
      (∀ names, names ≠ [] → Plain (.app "get-value" [.list (names.map .sym)]) →
        ∃ text, Hears start (values names) p
          [(Sexp.app "get-value" [.list (names.map .sym)]).print, Peer.markerCommand] [text]
          (readReply text)) ∧
      (∀ name, Plain (.app "get-info" [.sym name]) →
        ∃ text, Hears start (info name) p
          [(Sexp.app "get-info" [.sym name]).print, Peer.markerCommand] [text]
          (readInfo name text)) ∧
      ∀ op : Op, op.isSilent = true → (∀ x, op.command? = some x → Plain x) →
        ∃ texts, Hears start op.run p texts [] (.ok ()) := by
  obtain ⟨p₀, hlaunch, hpaired⟩ := exists_launch hprogram hstart hplain transcript
  refine ⟨p₀, hlaunch, fun ops hops hcommands => ?_⟩
  have hrun := hpaired.runAll hops hcommands
  exact ⟨hrun.length_eq, hears_checkSat hrun, fun _ => hears_values hrun,
    fun _ => hears_info hrun, fun _ => hears_silent hrun⟩

/-- A solver that reports an error of its own after a command without a reply, and that breaks off
one of its replies. -/
def grumbler : Peer :=
  { script := [.say "sat", .say "((a 1", .say "((b 2))"]
    remarks := fun received =>
      if received.head? = some "(assert oops)" then "(error \"unknown constant oops\")" else "" }

theorem polite_grumbler : grumbler.Polite where
  alive := rfl
  unstuck := rfl
  answering := rfl
  script r hr := by
    simp only [grumbler, List.mem_cons, List.not_mem_nil, or_false] at hr
    rcases hr with rfl | rfl | rfl
    · exact ⟨_, rfl, by decide +kernel⟩
    · exact ⟨_, rfl, by decide +kernel⟩
    · exact ⟨_, rfl, by decide +kernel⟩
  remarks received := by
    rw [grumbler]
    dsimp only
    split
    · decide +kernel
    · decide +kernel
  output l hl := by cases hl

/-- The error is part of the reply to the next query, which fails on it. The query after that fails
on a reply that cannot be read. The third gets its own. -/
theorem grumbler_paired :
    ∃ p₀, launch (fun _ => some grumbler) { program := "z3" } none = .ok p₀ ∧
      (let p := [Op.assert (.sym "oops"), .checkSat, .values ["a"]].foldl
        (fun p op => (op.run p).2) p₀
      replies grumbler p = ["(error \"unknown constant oops\")\nsat", "((a 1"] ∧
      (values ["b"] p).1 = .ok (.list [.list [.sym "b", .num 2]]) ∧
      replies grumbler (values ["b"] p).2 = replies grumbler p ++ ["((b 2))"]) := by
  have hplain : ∀ x ∈ Launch.commands { program := "z3" }, Plain x := by decide +kernel
  obtain ⟨p₀, hlaunch, hpaired⟩ :=
    @replies_paired (fun _ => some grumbler) _ _ rfl polite_grumbler hplain none
  obtain ⟨-, -, hvalues, -, -⟩ := hpaired [.assert (.sym "oops"), .checkSat, .values ["a"]]
    (by simp) (by decide +kernel)
  obtain ⟨text, hhears⟩ := hvalues ["b"] (by simp) (by decide +kernel)
  have hprinted : ∃ p₀, launch (fun _ => some grumbler) { program := "z3" } none = .ok p₀ ∧
      (let p := [Op.assert (.sym "oops"), .checkSat, .values ["a"]].foldl
        (fun p op => (op.run p).2) p₀
      replies grumbler p = ["(error \"unknown constant oops\")\nsat", "((a 1"] ∧
      replies grumbler (values ["b"] p).2 =
        ["(error \"unknown constant oops\")\nsat", "((a 1", "((b 2))"]) :=
    ⟨_, rfl, by decide +kernel⟩
  obtain ⟨q₀, hlaunch', hbefore, hafter⟩ := hprinted
  cases hlaunch.symm.trans hlaunch'
  have htext : text = "((b 2))" := by
    have hnew := hhears.replies_eq
    rw [hafter, hbefore] at hnew
    simpa using hnew.symm
  subst htext
  exact ⟨p₀, hlaunch, hbefore, hhears.result.trans (by decide +kernel), hhears.replies_eq⟩

end LoopInvariant.Solver
