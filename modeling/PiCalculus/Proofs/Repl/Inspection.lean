import Mathlib
import PiCalculus.Proofs.Repl.Commands

/-! Looking at a process disturbs no session. What a session writes to the output is told line by line,
each prompt with the answer to it. Taking out a line that lists or that writes Go takes out its own turn
and leaves the others, except that a later writing of Go may answer otherwise. -/

namespace PiCalculus

deriving instance DecidableEq for Repl.Command

namespace Repl

/-- A prompt with what is answered to the line after it, and the command if the line was one. -/
structure Turn where
  command : Option Command
  prompt : String
  answer : String
deriving DecidableEq

/-- What a turn writes to the output. -/
def Turn.stdout (t : Turn) : String := t.prompt ++ t.answer

/-- A turn without the answer to a command that writes Go. -/
def Turn.withoutCode (t : Turn) : Turn :=
  if t.command = some .codegen then { t with answer := "" } else t

variable (style : Style) (read : Reader)

/-- The command that a line gives, if one is waited for. -/
def command? (r : Repl) (line : Option String) : Option Command :=
  match r.mode, line with
  | .command, some line => some (.ofLine line)
  | _, _ => none

/-- The turn that a line, or the end of the input, takes. -/
def turn (r : Repl) (line : Option String) : Turn :=
  ⟨r.command? line, Transcript.stdout (prompt r.mode), Transcript.stdout (r.feed style read line).2⟩

/-- The turns of a session. The last prompt is not answered. -/
def turns (r : Repl) : List String → List Turn
  | [] => [r.turn style read none,
      ⟨none, Transcript.stdout (prompt (r.feed style read none).1.mode), ""⟩]
  | line :: lines =>
    match r.mode with
    | .finished => []
    | _ => r.turn style read (some line) :: (r.feed style read (some line)).1.turns lines

variable {style read} in
theorem turns_of_finished {r : Repl} (h : r.mode = .finished) (line : String) (lines : List String) :
    r.turns style read (line :: lines) = [] := by
  rw [turns, h]

variable {style read} in
theorem turns_cons {r : Repl} (h : r.mode ≠ .finished) (line : String) (lines : List String) :
    r.turns style read (line :: lines) =
      r.turn style read (some line) :: (r.feed style read (some line)).1.turns style read lines := by
  rw [turns]
  split
  · next hfinished => exact (h hfinished).elim
  · rfl

/-- The session after it has taken in some lines. -/
def after (r : Repl) (lines : List String) : Repl :=
  lines.foldl (fun r line => (r.feed style read (some line)).1) r

theorem stdout_run (r : Repl) (lines : List String) :
    (r.run style read lines).stdout =
      String.join ((r.turns style read lines).map Turn.stdout) := by
  induction lines generalizing r with
  | nil =>
    rw [run, turns]
    dsimp only
    rw [Transcript.stdout_append, Transcript.stdout_append, List.map_cons, List.map_cons,
      List.map_nil, String.join_cons, String.join_cons, String.join_nil]
    simp only [Turn.stdout, turn, String.append_empty]
  | cons line lines ih =>
    by_cases hmode : r.mode = .finished
    · rw [run, turns_of_finished hmode, hmode]
      rfl
    · have hrun : r.run style read (line :: lines) = prompt r.mode ++
          (r.feed style read (some line)).2 ++ (r.feed style read (some line)).1.run style read lines := by
        rw [run]
        cases hcases : r.mode with
        | finished => exact (hmode hcases).elim
        | command => rfl
        | source text => rfl
      rw [turns_cons hmode, hrun, Transcript.stdout_append, Transcript.stdout_append, List.map_cons,
        String.join_cons, ih]
      rfl

/-- All names of the processes that are kept are as they were read, but for labels and types. -/
def Plain (r : Repl) : Prop := ∀ p ∈ r.history, p.store.Plain

variable {style read}

/-- Two sessions that wait for the same and keep programs that cannot be told apart. -/
structure Alike (typed : Prop) (r r' : Repl) : Prop where
  mode : r'.mode = r.mode
  history : List.Forall₂ (Program.Indistinct typed) r.history r'.history

section last

variable {r r' : Repl} {typed : Prop} {word : String}
  {work : Program → Program × Transcript × Option Error}

theorem history_cases (r : Repl) :
    (r.history = [] ∧ r.history.getLast? = none) ∨
      ∃ earlier p, r.history = earlier ++ [p] := by
  rcases List.eq_nil_or_concat r.history with h | ⟨earlier, p, h⟩
  · exact .inl ⟨h, by rw [h]; rfl⟩
  · exact .inr ⟨earlier, p, by rw [h, List.concat_eq_append]⟩

theorem onLast_nil (h : r.history = []) : (r.onLast style word work).1 = r ∧
    (r.onLast style word work).2.stdout = "" := by
  unfold onLast
  rw [h]
  exact ⟨rfl, rfl⟩

theorem onLast_concat {earlier : List Program} {p : Program} (h : r.history = earlier ++ [p]) :
    (r.onLast style word work).1 = { r with history := earlier ++ [(work p).1] } ∧
      (r.onLast style word work).2.stdout = (work p).2.1.stdout := by
  unfold onLast
  rw [h, List.getLast?_concat, List.dropLast_concat]
  refine ⟨rfl, ?_⟩
  dsimp only
  rw [Transcript.stdout_append]
  cases (work p).2.2 with
  | none => exact String.append_empty ..
  | some e =>
    dsimp only
    rw [Transcript.stdout_failure, String.append_empty]

theorem Plain.onLast (h : r.Plain) (hwork : ∀ p, p.store.Plain → (work p).1.store.Plain) :
    (r.onLast style word work).1.Plain := by
  rcases r.history_cases with ⟨hnil, -⟩ | ⟨earlier, p, hconcat⟩
  · rwa [(onLast_nil hnil).1]
  · rw [(onLast_concat hconcat).1]
    unfold Plain at h ⊢
    rw [hconcat, List.forall_mem_append, List.forall_mem_singleton] at h
    rw [List.forall_mem_append, List.forall_mem_singleton]
    exact ⟨h.1, hwork p h.2⟩

/-- The last programs of sessions that are alike cannot be told apart. -/
theorem Alike.history_cases (h : Alike typed r r') :
    (r.history = [] ∧ r'.history = []) ∨
      ∃ earlier p earlier' q, r.history = earlier ++ [p] ∧ r'.history = earlier' ++ [q] ∧
        List.Forall₂ (Program.Indistinct typed) earlier earlier' ∧ Program.Indistinct typed p q := by
  have hreverse := List.forall₂_reverse_iff.mpr h.history
  cases hr : r.history.reverse with
  | nil =>
    rw [hr, List.forall₂_nil_left_iff] at hreverse
    exact .inl ⟨List.reverse_eq_nil_iff.mp hr, List.reverse_eq_nil_iff.mp hreverse⟩
  | cons p earlier =>
    rw [hr, List.forall₂_cons_left_iff] at hreverse
    obtain ⟨q, earlier', hpq, hearlier, hr'⟩ := hreverse
    refine .inr ⟨earlier.reverse, p, earlier'.reverse, q, ?_, ?_,
      List.forall₂_reverse_iff.mpr hearlier, hpq⟩
    · exact List.reverse_eq_cons_iff.mp hr
    · exact List.reverse_eq_cons_iff.mp hr'

theorem Alike.onLast (h : Alike typed r r')
    (hwork : ∀ p q, Program.Indistinct typed p q → Program.Indistinct typed (work p).1 (work q).1) :
    Alike typed (r.onLast style word work).1 (r'.onLast style word work).1 := by
  rcases h.history_cases with ⟨hr, hr'⟩ | ⟨earlier, p, earlier', q, hr, hr', hearlier, hpq⟩
  · rwa [(onLast_nil hr).1, (onLast_nil hr').1]
  · rw [(onLast_concat hr).1, (onLast_concat hr').1]
    exact ⟨h.mode, List.rel_append hearlier (.cons (hwork p q hpq) .nil)⟩

theorem Alike.stdout_onLast (h : Alike typed r r')
    (hwork : ∀ p q, Program.Indistinct typed p q → (work q).2.1.stdout = (work p).2.1.stdout) :
    (r'.onLast style word work).2.stdout = (r.onLast style word work).2.stdout := by
  rcases h.history_cases with ⟨hr, hr'⟩ | ⟨earlier, p, earlier', q, hr, hr', -, hpq⟩
  · rw [(onLast_nil hr).2, (onLast_nil hr').2]
  · rw [(onLast_concat hr).2, (onLast_concat hr').2, hwork p q hpq]

theorem Plain.alike_onLast (h : r.Plain)
    (hwork : ∀ p, p.store.Plain → Program.Indistinct typed p (work p).1) :
    Alike typed r (r.onLast style word work).1 := by
  have hsame : ∀ {ps : List Program}, (∀ p ∈ ps, p.store.Plain) →
      List.Forall₂ (Program.Indistinct typed) ps ps := fun hps =>
    List.forall₂_same.mpr fun p hp => .refl (hps p hp)
  rcases r.history_cases with ⟨hnil, -⟩ | ⟨earlier, p, hconcat⟩
  · rw [(onLast_nil hnil).1]
    exact ⟨rfl, hsame h⟩
  · rw [(onLast_concat hconcat).1]
    unfold Plain at h
    rw [hconcat, List.forall_mem_append, List.forall_mem_singleton] at h
    refine ⟨rfl, ?_⟩
    rw [hconcat]
    exact List.rel_append (hsame h.1) (.cons (hwork p h.2) .nil)

end last

section sessions

variable (style read) {r r' : Repl} {typed : Prop}

theorem Plain.parse (h : r.Plain) (source : String) : (r.parse style source).1.Plain := by
  unfold Repl.parse
  cases parsed : Program.parse source with
  | ok p =>
    refine List.forall_mem_append.mpr ⟨h, ?_⟩
    rw [List.forall_mem_singleton]
    exact Program.plain_of_parse parsed
  | error e => exact h

theorem Plain.perform (h : r.Plain) (command : Command) :
    (r.perform style read command).1.Plain := by
  cases command with
  | parse source => exact h.parse style source
  | load file =>
    dsimp only [Repl.perform]
    cases read file with
    | ok source => exact h.parse style source
    | error e => exact h
  | reduce => exact h.onLast fun p hp => Program.plain_reduceLast hp style
  | list => exact h.onLast fun p hp => Program.plain_list hp style
  | codegen => exact h.onLast fun p hp => Program.plain_generateLast hp style
  | _ => exact h

theorem Plain.feed (h : r.Plain) (line : Option String) : (r.feed style read line).1.Plain := by
  unfold Repl.feed
  split
  · exact h
  · exact h
  · exact h.perform style read _
  · split
    · exact Plain.parse style (r := { r with mode := .command }) h _
    · exact h
  · exact Plain.parse style (r := { r with mode := .command }) h _

theorem plain_start : start.Plain := fun _ hp => by cases hp

theorem Plain.after (h : r.Plain) (lines : List String) : (r.after style read lines).Plain := by
  induction lines generalizing r with
  | nil => exact h
  | cons line lines ih => exact ih (h.feed style read (some line))

theorem Alike.parse (h : Alike typed r r') (source : String) :
    Alike typed (r.parse style source).1 (r'.parse style source).1 ∧
      (r'.parse style source).2 = (r.parse style source).2 := by
  unfold Repl.parse
  cases parsed : Program.parse source with
  | ok p =>
    have hp : Program.Indistinct typed p p := .refl (Program.plain_of_parse parsed)
    exact ⟨⟨h.mode, List.rel_append h.history (.cons hp .nil)⟩, rfl⟩
  | error e => exact ⟨h, rfl⟩

theorem Alike.historyTranscript (h : Alike typed r r') :
    Repl.historyTranscript style r'.history = Repl.historyTranscript style r.history := by
  have hcalculi : r'.history.map Program.calculi = r.history.map Program.calculi := by
    have hequal := h.history.imp fun p q hpq => hpq.calculi_eq.symm
    rw [← List.forall₂_map_right_iff, ← List.forall₂_map_left_iff, List.forall₂_eq_eq_eq] at hequal
    exact hequal.symm
  have htold : ∀ ps : List Program, ps ≠ [] → Repl.historyTranscript style ps =
      (ps.map Program.calculi).zipIdx.map fun (c, i) => style.respond (toString i ++ ":\t" ++ c) := by
    intro ps hps
    unfold Repl.historyTranscript
    split
    · exact (hps rfl).elim
    · rw [List.zipIdx_map, List.map_map]
      rfl
  by_cases hr : r.history = []
  · rw [hr, List.map_nil, List.map_eq_nil_iff] at hcalculi
    rw [hr, hcalculi]
  · have hr' : r'.history ≠ [] := by
      intro hnil
      rw [hnil, List.map_nil, eq_comm, List.map_eq_nil_iff] at hcalculi
      exact hr hcalculi
    rw [htold _ hr, htold _ hr', hcalculi]

/-- A command keeps sessions alike and answers both the same, unless it writes Go and types differ. -/
theorem Alike.perform (h : Alike typed r r') (command : Command) :
    Alike typed (r.perform style read command).1 (r'.perform style read command).1 ∧
      ((command = .codegen → typed) →
        (r'.perform style read command).2.stdout = (r.perform style read command).2.stdout) := by
  cases command with
  | parse source =>
    obtain ⟨hparse, htold⟩ := h.parse style source
    exact ⟨hparse, fun _ => congrArg Transcript.stdout htold⟩
  | load file =>
    dsimp only [Repl.perform]
    cases read file with
    | error e => exact ⟨h, fun _ => rfl⟩
    | ok source =>
      obtain ⟨hparse, htold⟩ := h.parse style source
      exact ⟨hparse, fun _ => congrArg (fun t => Transcript.stdout (_ :: t)) htold⟩
  | history => exact ⟨h, fun _ => congrArg Transcript.stdout (h.historyTranscript style)⟩
  | reduce =>
    exact ⟨h.onLast fun p q hpq => (hpq.reduceLast style).1,
      fun _ => h.stdout_onLast fun p q hpq => (hpq.reduceLast style).2⟩
  | list =>
    exact ⟨h.onLast fun p q hpq => (hpq.list style).1,
      fun _ => h.stdout_onLast fun p q hpq => (hpq.list style).2⟩
  | codegen =>
    exact ⟨h.onLast fun p q hpq => (hpq.generateLast style).1,
      fun htyped => h.stdout_onLast fun p q hpq => (hpq.generateLast style).2 (htyped rfl)⟩
  | exit => exact ⟨⟨rfl, h.history⟩, fun _ => rfl⟩
  | parseLines => exact ⟨⟨rfl, h.history⟩, fun _ => rfl⟩
  | nothing | help | unknown => exact ⟨h, fun _ => rfl⟩

theorem Alike.feed (h : Alike typed r r') (line : Option String) :
    Alike typed (r.feed style read line).1 (r'.feed style read line).1 ∧
      ((r.command? line = some .codegen → typed) →
        (r'.feed style read line).2.stdout = (r.feed style read line).2.stdout) := by
  have hlisten : ∀ mode, Alike typed { r with mode } { r' with mode } := fun _ => ⟨rfl, h.history⟩
  have hparse : ∀ text, _ := fun text => (hlisten .command).parse style text
  unfold Repl.feed command?
  rw [h.mode]
  cases hmode : r.mode with
  | finished => exact ⟨h, fun _ => rfl⟩
  | command =>
    cases line with
    | none => exact ⟨hlisten _, fun _ => rfl⟩
    | some line =>
      obtain ⟨hperform, hstdout⟩ := h.perform style read (.ofLine line)
      exact ⟨hperform, fun htyped => hstdout fun hc => htyped (congrArg some hc)⟩
  | source text =>
    cases line with
    | none => exact ⟨(hparse text).1, fun _ => congrArg Transcript.stdout (hparse text).2⟩
    | some line =>
      dsimp only
      split
      · exact ⟨(hparse text).1, fun _ => congrArg Transcript.stdout (hparse text).2⟩
      · exact ⟨hlisten _, fun _ => rfl⟩

theorem withoutCode_eq {t u : Turn} (hcommand : u.command = t.command) (hprompt : u.prompt = t.prompt)
    (hanswer : t.command ≠ some .codegen → u.answer = t.answer) : u.withoutCode = t.withoutCode := by
  obtain ⟨command, prompt, answer⟩ := t
  obtain ⟨command', prompt', answer'⟩ := u
  obtain rfl : command' = command := hcommand
  obtain rfl : prompt' = prompt := hprompt
  unfold Turn.withoutCode
  by_cases hcode : command' = some .codegen
  · rw [if_pos hcode, if_pos hcode]
  · obtain rfl : answer' = answer := hanswer hcode
    rfl

theorem Alike.turn (h : Alike typed r r') (line : Option String) :
    (typed → r'.turn style read line = r.turn style read line) ∧
      (r'.turn style read line).withoutCode = (r.turn style read line).withoutCode := by
  have hcommand : r'.command? line = r.command? line := by
    unfold command?
    rw [h.mode]
  have hprompt : Transcript.stdout (prompt r'.mode) = Transcript.stdout (prompt r.mode) := by
    rw [h.mode]
  have hanswer := (h.feed style read line).2
  constructor
  · intro htyped
    unfold Repl.turn
    rw [hcommand, hprompt, hanswer fun _ => htyped]
  · exact withoutCode_eq hcommand hprompt fun hother => hanswer fun hcode => (hother hcode).elim

theorem Alike.turns (h : Alike typed r r') (lines : List String) :
    (typed → r'.turns style read lines = r.turns style read lines) ∧
      (r'.turns style read lines).map Turn.withoutCode =
        (r.turns style read lines).map Turn.withoutCode := by
  induction lines generalizing r r' with
  | nil =>
    obtain ⟨hturn, hsilent⟩ := h.turn style read none
    rw [Repl.turns, Repl.turns, (h.feed style read none).1.mode]
    refine ⟨fun htyped => by rw [hturn htyped], ?_⟩
    rw [List.map_cons, hsilent, ← List.map_cons]
  | cons line lines ih =>
    by_cases hmode : r.mode = .finished
    · rw [turns_of_finished hmode, turns_of_finished (h.mode.trans hmode)]
      exact ⟨fun _ => rfl, rfl⟩
    · obtain ⟨hturn, hsilent⟩ := h.turn style read (some line)
      obtain ⟨hrest, hrest'⟩ := ih (h.feed style read (some line)).1
      rw [turns_cons hmode, turns_cons (h.mode ▸ hmode)]
      refine ⟨fun htyped => by rw [hturn htyped, hrest htyped], ?_⟩
      rw [List.map_cons, List.map_cons, hsilent, hrest']

/-- A line is taken out with its turn, if its command leaves behind what is alike. -/
theorem turns_eraseIdx {command : Command} {lines : List String} {i : Nat} {t : Turn} (hr : r.Plain)
    (hcommand : ∀ r : Repl, r.Plain → Alike typed r (r.perform style read command).1)
    (ht : (r.turns style read lines)[i]? = some t) (hc : t.command = some command) :
    (typed → r.turns style read (lines.eraseIdx i) = (r.turns style read lines).eraseIdx i) ∧
      (r.turns style read (lines.eraseIdx i)).map Turn.withoutCode =
        ((r.turns style read lines).eraseIdx i).map Turn.withoutCode := by
  induction lines generalizing r i with
  | nil =>
    have hnone : ∀ u ∈ r.turns style read [], u.command = none := by
      intro u hu
      rw [turns, List.mem_pair] at hu
      rcases hu with rfl | rfl
      · dsimp only [Repl.turn, command?]
        split
        · next heq => cases heq
        · rfl
      · rfl
    rw [hnone t (List.mem_of_getElem? ht)] at hc
    cases hc
  | cons line lines ih =>
    by_cases hmode : r.mode = .finished
    · rw [turns_of_finished hmode] at ht
      cases ht
    · rw [turns_cons hmode] at ht ⊢
      cases i with
      | zero =>
        obtain rfl : r.turn style read (some line) = t := Option.some.inj ht
        -- A line with a command was read by a session that waits, which does nothing but perform
        -- it.
        have hperformed : (r.feed style read (some line)).1 = (r.perform style read command).1 := by
          dsimp only [Repl.turn, command?] at hc
          split at hc
          · next hwaiting heq =>
            cases heq
            rw [Option.some.injEq] at hc
            unfold Repl.feed
            rw [hwaiting, ← hc]
          · cases hc
        obtain ⟨hsame, hsilent⟩ := (hcommand r hr).turns style read lines
        rw [List.eraseIdx_zero, List.eraseIdx_zero, List.tail_cons, List.tail_cons, hperformed]
        exact ⟨fun htyped => (hsame htyped).symm, hsilent.symm⟩
      | succ i =>
        obtain ⟨hsame, hsilent⟩ := ih (hr.feed style read (some line)) ht
        rw [List.eraseIdx_cons_succ, List.eraseIdx_cons_succ, turns_cons hmode]
        refine ⟨fun htyped => by rw [hsame htyped], ?_⟩
        rw [List.map_cons, List.map_cons, hsilent]

theorem alike_list (h : r.Plain) : Alike typed r (r.perform style read .list).1 :=
  h.alike_onLast fun _ hp => .of_list hp style

theorem alike_codegen (h : r.Plain) : Alike False r (r.perform style read .codegen).1 :=
  h.alike_onLast fun _ hp => .of_generateLast hp style

end sessions

/-- A line that lists can be taken out of a session with its own turn and no other turn changes. A line
that writes Go can be taken out so too, except that other such lines may answer otherwise. And all
along every name that occurs in a kept process has the ordinary sort. -/
theorem inspection_invisible (style : Style) (read : Reader) (lines : List String) :
    let turns := start.turns style read
    (start.run style read lines).stdout = String.join ((turns lines).map Turn.stdout) ∧
      (∀ i t, (turns lines)[i]? = some t →
        (t.command = some .list → turns (lines.eraseIdx i) = (turns lines).eraseIdx i) ∧
        (t.command = some .codegen → (turns (lines.eraseIdx i)).map Turn.withoutCode =
          ((turns lines).eraseIdx i).map Turn.withoutCode)) ∧
      ∀ p ∈ (start.after style read lines).history, ∀ n ∈ p.process.occurrences,
        p.store.sort n = .name := by
  refine ⟨stdout_run style read start lines, fun i t ht => ⟨fun hlist => ?_, fun hcodegen => ?_⟩, ?_⟩
  · have halike : ∀ r : Repl, r.Plain → Alike True r (r.perform style read .list).1 :=
      fun r hr => alike_list style read hr
    exact (turns_eraseIdx style read plain_start halike ht hlist).1 trivial
  · have halike : ∀ r : Repl, r.Plain → Alike False r (r.perform style read .codegen).1 :=
      fun r hr => alike_codegen style read hr
    exact (turns_eraseIdx style read plain_start halike ht hcodegen).2
  · intro p hp n _
    exact (plain_start.after style read lines p hp).ordinary n

theorem inspection_invisible_checked :
    let turns := start.turns ⟨false, false⟩ fun _ => .error .missing
    let lines := ["parse (new a)(a<b> | a(x).x<>)", "show", "codegen", "reduce", "codegen", "history"]
    (turns (lines.eraseIdx 1)) = (turns lines).eraseIdx 1 ∧
      ((turns (lines.eraseIdx 4)).map Turn.withoutCode) =
        ((turns lines).eraseIdx 4).map Turn.withoutCode := by
  let turns := start.turns ⟨false, false⟩ fun _ => .error .missing
  let lines := ["parse (new a)(a<b> | a(x).x<>)", "show", "codegen", "reduce", "codegen", "history"]
  have hfirst : (turns lines)[1]?.map Turn.command = some (some .list) := by decide +kernel
  have hlast : (turns lines)[4]?.map Turn.command = some (some .codegen) := by decide +kernel
  obtain ⟨t, ht, hlist⟩ := Option.map_eq_some_iff.mp hfirst
  obtain ⟨u, hu, hcodegen⟩ := Option.map_eq_some_iff.mp hlast
  have hinvisible := (inspection_invisible ⟨false, false⟩ (fun _ => .error .missing) lines).2.1
  exact ⟨(hinvisible 1 t ht).1 hlist, (hinvisible 4 u hu).2 hcodegen⟩

end Repl

end PiCalculus
