import Mathlib
import PiCalculus.Proofs.Binding.Classified
import PiCalculus.Proofs.Operation.Runs

/-! The sorts of names after they have been identified. In a process whose binders come before what
they bind, the order in which the nodes are met leaves no trace: a name becomes a variable if it is
received somewhere, or sent somewhere and restricted nowhere. All others keep the sort that they had,
restricted ones too. -/

namespace PiCalculus

namespace Process

variable {ν : Type} {p : Process ν}

/-- What is received somewhere shows to be a variable, and what is sent too if it is not restricted. -/
def ShowsVariable (p : Process ν) (n : ν) : Prop :=
  (∃ chan vars, .received chan vars ∈ p.uses ∧ n ∈ vars) ∨
    (∃ chan values, .sent chan values ∈ p.uses ∧ n ∈ values) ∧ n ∉ p.restrictedNames

theorem mem_uses_iff {use : Use ν} : use ∈ p.uses ↔ ∃ q ∈ p.breadthFirst, use ∈ q.rootUses :=
  (gathers_uses.breadthFirst_perm p).mem_iff.symm.trans List.mem_flatMap

theorem sent_mem_uses_iff {chan : ν} {values : List ν} :
    .sent chan values ∈ p.uses ↔ send chan values ∈ p.breadthFirst := by
  rw [mem_uses_iff]
  constructor
  · rintro ⟨q, hq, hsent⟩
    cases q with
    | send c vs =>
      obtain ⟨rfl, rfl⟩ : chan = c ∧ values = vs := by simpa [rootUses] using hsent
      exact hq
    | _ => simp [rootUses] at hsent
  · intro h
    exact ⟨_, h, List.mem_singleton_self _⟩

theorem received_mem_uses_iff {chan : ν} {vars : List ν} :
    .received chan vars ∈ p.uses ↔ ∃ body, receive chan vars body ∈ p.breadthFirst := by
  rw [mem_uses_iff]
  constructor
  · rintro ⟨q, hq, hreceived⟩
    cases q with
    | receive c vs body =>
      obtain ⟨rfl, rfl⟩ : chan = c ∧ vars = vs := by simpa [rootUses] using hreceived
      exact ⟨body, hq⟩
    | _ => simp [rootUses] at hreceived
  · rintro ⟨body, h⟩
    exact ⟨_, h, List.mem_singleton_self _⟩

theorem mem_restrictedNames_of_mem_breadthFirst {name : ν} {body : Process ν}
    (h : restrict name body ∈ p.breadthFirst) : name ∈ p.restrictedNames := by
  have hroot : .restricted name ∈ (restrict name body).rootMentions := by simp [rootMentions]
  exact (exists_mem_breadthFirst (fun _ => mem_restrictedNames_iff) p).mp ⟨_, h, hroot⟩

section Among

variable {known : List Name} {ps : List (Process Name)} {n : Name}

/-- What is sent becomes a variable unless it is known before or introduced by a restriction. -/
theorem mem_variablesAmong_of_sent {chan : Name} {values : List Name}
    (hmet : send chan values ∈ ps) (hn : n ∈ values) (hk : n ∉ known)
    (hr : ∀ body, restrict n body ∉ ps) : n ∈ variablesAmong known ps := by
  induction ps generalizing known with
  | nil => cases hmet
  | cons q ps ih =>
    have hrest : ∀ body, restrict n body ∉ ps := fun body hm => hr body (List.mem_cons_of_mem q hm)
    cases q with
    | nil => exact ih (by simpa using hmet) hk hrest
    | par qs => exact ih (by simpa using hmet) hk hrest
    | replicate b => exact ih (by simpa using hmet) hk hrest
    | restrict name b =>
      have hne : n ≠ name := by
        rintro rfl
        exact hr b List.mem_cons_self
      show n ∈ variablesAmong (name :: known) ps
      exact ih (by simpa using hmet) (by simp [hne, hk]) hrest
    | receive c vars b =>
      rw [variablesAmong, List.mem_append]
      by_cases hv : n ∈ vars
      · exact .inl hv
      · exact .inr (ih (by simpa using hmet) (by simp [hv, hk]) hrest)
    | send c vs =>
      rw [variablesAmong, List.mem_append]
      by_cases hv : n ∈ vs
      · exact .inl (List.mem_filter.mpr ⟨hv, by simpa using hk⟩)
      -- It is not a value of this send, so the one that is looked for comes later.
      · have hlater : send chan values ∈ ps := by
          refine (List.mem_cons.mp hmet).resolve_left ?_
          rintro heq
          cases heq
          exact hv hn
        exact .inr (ih hlater (by simp [hv, hk]) hrest)

theorem used_of_mem_variablesAmong (h : n ∈ variablesAmong known ps) :
    (∃ chan vars body, receive chan vars body ∈ ps ∧ n ∈ vars) ∨
      ∃ chan values, send chan values ∈ ps ∧ n ∈ values := by
  induction ps generalizing known with
  | nil => cases h
  | cons q ps ih =>
    have later : ∀ known, n ∈ variablesAmong known ps →
        (∃ chan vars body, receive chan vars body ∈ q :: ps ∧ n ∈ vars) ∨
          ∃ chan values, send chan values ∈ q :: ps ∧ n ∈ values := by
      intro known h
      rcases ih h with ⟨chan, vars, body, hm, hn⟩ | ⟨chan, values, hm, hn⟩
      · exact .inl ⟨chan, vars, body, List.mem_cons_of_mem q hm, hn⟩
      · exact .inr ⟨chan, values, List.mem_cons_of_mem q hm, hn⟩
    cases q with
    | nil => exact later known h
    | par qs => exact later known h
    | replicate b => exact later known h
    | restrict name b => exact later (name :: known) h
    | receive c vars b =>
      rw [variablesAmong, List.mem_append] at h
      rcases h with hv | h
      · exact .inl ⟨c, vars, b, List.mem_cons_self, hv⟩
      · exact later _ h
    | send c values =>
      rw [variablesAmong, List.mem_append] at h
      rcases h with hv | h
      · exact .inr ⟨c, values, List.mem_cons_self, List.mem_of_mem_filter hv⟩
      · exact later _ h

end Among

/-- The names that are met as variables are those that the process shows to be variables, in whatever
order its nodes stand. -/
theorem Orderly.mem_variables_iff {p : Process Name} (h : p.Orderly) {n : Name} :
    n ∈ p.variables ↔ p.ShowsVariable n := by
  constructor
  · intro hn
    rcases used_of_mem_variablesAmong hn with ⟨chan, vars, body, hm, hv⟩ | ⟨chan, values, hm, hv⟩
    · exact .inl ⟨chan, vars, received_mem_uses_iff.mpr ⟨body, hm⟩, hv⟩
    · refine .inr ⟨⟨chan, values, sent_mem_uses_iff.mpr hm, hv⟩, fun hrestricted => ?_⟩
      exact h.notMem_variables hrestricted hn
  · rintro (⟨chan, vars, hreceived, hv⟩ | ⟨⟨chan, values, hsent, hv⟩, hfree⟩)
    · obtain ⟨body, hm⟩ := received_mem_uses_iff.mp hreceived
      exact mem_variablesAmong_of_receive hm hv
    · refine mem_variablesAmong_of_sent (sent_mem_uses_iff.mp hsent) hv List.not_mem_nil ?_
      exact fun body hm => hfree (mem_restrictedNames_of_mem_breadthFirst hm)

end Process

def Operation.setsSorts : Operation → Bool
  | .identifySorts | .inferSortsBySpelling | .resetSorts => true
  | _ => false

theorem Operation.resorts_run {op : Operation} (h : op.setsSorts) (held : List Name) (s : Store)
    (p : Process Name) : (op.run held s p).process = p ∧ s.Resorts (op.run held s p).store := by
  cases op with
  | identifySorts => exact ⟨rfl, s.resorts_identifySorts p⟩
  | inferSortsBySpelling => exact ⟨rfl, s.resorts_inferSortsBySpelling p⟩
  | resetSorts => exact ⟨rfl, s.resorts_resetSorts p⟩
  | _ => cases h

namespace Program

open Process

variable {p : Program} {n : Name}

section writable

variable (writable : ∀ n, p.store.isConstant n = false)

include writable

theorem run_identifySorts :
    (p.run .identifySorts).2.result = .ok .none ∧
      (p.run .identifySorts).1.process = p.process ∧
      (p.run .identifySorts).1.store.size = p.store.size ∧
      ∀ n, (p.run .identifySorts).1.store.get? n =
        if n ∈ p.process.occurrences then
          (p.store.get? n).map fun e =>
            if n ∈ p.process.variables then { e with sort := .var } else e
        else none := by
  obtain ⟨t, ht, hsize, hget⟩ := Store.identifySorts_eq writable p.process
  have hrun : p.run .identifySorts =
      (⟨p.process, t.retain p.process.occurrences⟩, Operation.ofWritten p.process ⟨t, none⟩) := by
    simp only [run, Operation.run, ht]
    rfl
  rw [hrun]
  refine ⟨rfl, rfl, (t.size_retain _).trans hsize, fun n => ?_⟩
  rw [Store.get?_retain, hget]

/-- A name that occurs becomes a variable if it is met as one, and otherwise keeps its sort. -/
theorem sort_run_identifySorts (hn : n ∈ p.process.occurrences) (live : p.store.isLive n) :
    (p.run .identifySorts).1.store.sort n =
      if n ∈ p.process.variables then .var else p.store.sort n := by
  obtain ⟨-, -, -, hget⟩ := run_identifySorts writable
  obtain ⟨e, he⟩ := Option.isSome_iff_exists.mp live
  rw [Store.sort, hget, if_pos hn, he, Store.sort_of_get? he]
  split <;> rfl

theorem run_identifySorts_again :
    ((p.run .identifySorts).1.run .identifySorts).1 = (p.run .identifySorts).1 ∧
      ((p.run .identifySorts).1.run .identifySorts).2.result = .ok .none := by
  obtain ⟨-, hprocess, -, hget⟩ := run_identifySorts writable
  have hresorts := p.store.resorts_identifySorts p.process
  have hwritable : ∀ n, (p.run .identifySorts).1.store.isConstant n = false :=
    Store.isConstant_retain (fun n => (hresorts.isConstant_eq n).trans (writable n)) _
  generalize (p.run .identifySorts).1 = q at hprocess hget hwritable
  obtain ⟨hresult, hprocess', hsize', hget'⟩ := run_identifySorts hwritable
  -- The second pass writes the sorts that are there already.
  have hstore : (q.run .identifySorts).1.store = q.store := by
    apply Store.ext_get? hsize'
    intro n
    rw [hget', hget, hprocess]
    split
    · rw [Option.map_map]
      congr 1
      funext e
      rw [Function.comp_apply]
      split <;> rfl
    · rfl
  refine ⟨?_, hresult⟩
  generalize (q.run .identifySorts).1 = again at hprocess' hstore
  obtain ⟨process, store⟩ := again
  obtain ⟨process', store'⟩ := q
  exact congrArg₂ Program.mk hprocess' hstore

end writable

theorem isLive_run_bind {source : String} (parsed : Program.parse source = .ok p)
    (hn : n ∈ (p.run .bind).1.process.occurrences) : (p.run .bind).1.store.isLive n := by
  have hretained : (p.run .bind).1.store.get? n = p.store.get? n :=
    (p.store.get?_retain _ n).trans (if_pos hn)
  rw [Store.isLive, hretained]
  exact (bound_of_parse parsed).live n hn

theorem mem_occurrences_of_isLive_run_bind (live : (p.run .bind).1.store.isLive n) :
    n ∈ (p.run .bind).1.process.occurrences := by
  by_contra hn
  have hdropped : (p.run .bind).1.store.get? n = none :=
    (p.store.get?_retain _ n).trans (if_neg hn)
  rw [Store.isLive, hdropped] at live
  cases live

/-- Passes that write sorts leave the process and all but the sorts as they were. -/
theorem resorts_runAll (owned : ∀ n, p.store.isLive n → n ∈ p.process.occurrences)
    {ops : List Operation} (h : ∀ op ∈ ops, op.setsSorts) :
    (p.runAll ops).process = p.process ∧ p.store.Resorts (p.runAll ops).store := by
  apply runAll_induction (motive := fun q => q.process = p.process ∧ p.store.Resorts q.store)
    ⟨rfl, .refl p.store⟩
  rintro op hop q ⟨hprocess, hresorts⟩
  obtain ⟨hsame, hstep⟩ := op.resorts_run (h op hop) [] q.store q.process
  have hall := hresorts.trans hstep
  refine ⟨hsame.trans hprocess, ?_⟩
  show p.store.Resorts ((op.run [] q.store q.process).store.retain
    (op.run [] q.store q.process).process.occurrences)
  rw [hall.retain_eq fun n hn => (hsame.trans hprocess).symm ▸ owned n hn]
  exact hall

/-- In a process that is read and bound exactly those names become variables that it shows to be such,
and identifying them again changes nothing. -/
theorem identifySorts_shown {source : String} {p : Program}
    (parsed : Program.parse source = .ok p) :
    let bound := (p.run .bind).1
    let sorted := (bound.run .identifySorts).1
    (bound.run .identifySorts).2.result = .ok .none ∧ sorted.process = bound.process ∧
      (∀ n ∈ bound.process.occurrences,
        (bound.process.ShowsVariable n → sorted.store.sort n = .var) ∧
          (¬ bound.process.ShowsVariable n → sorted.store.sort n = .name)) ∧
      (sorted.run .identifySorts).1 = sorted ∧
      (sorted.run .identifySorts).2.result = .ok .none := by
  intro bound sorted
  have hplain : bound.store.Plain := (plain_of_parse parsed).retain _
  have horderly : bound.process.Orderly := (Orderly.of_parse parsed).bind p.store.label
  obtain ⟨hresult, hprocess, -, -⟩ := run_identifySorts hplain.writable
  refine ⟨hresult, hprocess, fun n hn => ?_, run_identifySorts_again hplain.writable⟩
  have hsort := sort_run_identifySorts hplain.writable hn (isLive_run_bind parsed hn)
  rw [hplain.ordinary] at hsort
  rw [← horderly.mem_variables_iff]
  exact ⟨fun h => hsort.trans (if_pos h), fun h => hsort.trans (if_neg h)⟩

/-- A name is sent before its restriction is met, another one is sent in one place and received in
another, and two free names of one label are told apart. -/
theorem identifySorts_shown_deep :
    ∃ p, Program.parse "((new b)(a<b,c> | b(x).x<x>) | c(y).(new z)(y<z,d> | z(y).0))" = .ok p ∧
      let bound := (p.run .bind).1
      let sorted := (bound.run .identifySorts).1
      (sorted.process.walk.filter (sorted.store.sort · = .var)).map sorted.store.label =
        ["y", "c", "x", "x", "x", "y", "d", "y"] ∧
      (∀ n ∈ bound.process.occurrences,
        (bound.process.ShowsVariable n → sorted.store.sort n = .var) ∧
          (¬ bound.process.ShowsVariable n → sorted.store.sort n = .name)) ∧
      (sorted.run .identifySorts).1 = sorted := by
  obtain ⟨p, parsed, hlabels⟩ : ∃ p,
      Program.parse "((new b)(a<b,c> | b(x).x<x>) | c(y).(new z)(y<z,d> | z(y).0))" = .ok p ∧
      let sorted := ((p.run .bind).1.run .identifySorts).1
      (sorted.process.walk.filter (sorted.store.sort · = .var)).map sorted.store.label =
        ["y", "c", "x", "x", "x", "y", "d", "y"] := by
    decide +kernel
  obtain ⟨-, -, hshown, hagain, -⟩ := identifySorts_shown parsed
  exact ⟨p, parsed, hlabels, hshown, hagain⟩

/-- Whatever sorts the names of a bound process have, identifying them makes variables of what is
received, and leaves every restricted name the sort that it had. -/
theorem identifySorts_resorted {source : String} {p : Program} {t : Store}
    (parsed : Program.parse source = .ok p) (resorted : (p.run .bind).1.store.Resorts t) :
    let bound := (p.run .bind).1
    let sorted := (⟨bound.process, t⟩ : Program).run .identifySorts
    sorted.2.result = .ok .none ∧
      (∀ chan vars, .received chan vars ∈ bound.process.uses → ∀ n ∈ vars,
        sorted.1.store.sort n = .var) ∧
      ∀ n ∈ bound.process.restrictedNames, sorted.1.store.sort n = t.sort n := by
  intro bound sorted
  have hplain : bound.store.Plain := (plain_of_parse parsed).retain _
  have horderly : bound.process.Orderly := (Orderly.of_parse parsed).bind p.store.label
  have hwritable : ∀ n, t.isConstant n = false := fun n =>
    (resorted.isConstant_eq n).trans (hplain.writable n)
  -- The process alone tells which names become variables, so only for the others `t` counts.
  have hsort : ∀ n ∈ bound.process.occurrences, sorted.1.store.sort n =
      if n ∈ bound.process.variables then .var else t.sort n := fun n hn =>
    sort_run_identifySorts (p := ⟨bound.process, t⟩) hwritable hn
      ((resorted.isLive_eq n).trans (isLive_run_bind parsed hn))
  refine ⟨(run_identifySorts (p := ⟨bound.process, t⟩) hwritable).1, fun chan vars hreceived n hn => ?_,
    fun n hn => ?_⟩
  · have hvariable : n ∈ bound.process.variables :=
      horderly.mem_variables_iff.mpr (.inl ⟨chan, vars, hreceived, hn⟩)
    rw [hsort n (mem_walk.mp (variables_subset_walk _ hvariable)), if_pos hvariable]
  · have hocc : n ∈ bound.process.occurrences :=
      (occurrences_perm_prefixNames _).symm.subset (List.mem_append_right _ hn)
    rw [hsort n hocc, if_neg (horderly.notMem_variables hn)]

/-- Both restricted names are spelled like variables and are such after some passes. -/
theorem identifySorts_resorted_spelled :
    ∃ p t, Program.parse "(new x)(a<x> | (new y)a(z).z<y>)" = .ok p ∧
      (p.run .bind).1.store.Resorts t ∧
      let bound := (p.run .bind).1
      let sorted := (⟨bound.process, t⟩ : Program).run .identifySorts
      bound.process.restrictedNames.map t.sort = [.var, .var] ∧
      sorted.2.result = .ok .none ∧
      (∀ chan vars, .received chan vars ∈ bound.process.uses → ∀ n ∈ vars,
        sorted.1.store.sort n = .var) ∧
      ∀ n ∈ bound.process.restrictedNames, sorted.1.store.sort n = t.sort n := by
  obtain ⟨p, parsed, hsorts⟩ : ∃ p,
      Program.parse "(new x)(a<x> | (new y)a(z).z<y>)" = .ok p ∧
      let bound := (p.run .bind).1
      bound.process.restrictedNames.map (bound.runAll
        [.inferSortsBySpelling, .resetSorts, .identifySorts, .inferSortsBySpelling]).store.sort =
          [.var, .var] := by
    decide +kernel
  have hsets : ∀ op ∈ [Operation.inferSortsBySpelling, .resetSorts, .identifySorts,
      .inferSortsBySpelling], op.setsSorts = true := by
    decide
  have owned : ∀ n, (p.run .bind).1.store.isLive n → n ∈ (p.run .bind).1.process.occurrences :=
    fun _ => mem_occurrences_of_isLive_run_bind
  have hresorts := (resorts_runAll owned hsets).2
  exact ⟨p, _, parsed, hresorts, hsorts, identifySorts_resorted parsed hresorts⟩

/-- A restricted name that is spelled like a variable is made one, and identifying the sorts does not
make it a name again. -/
theorem restricted_name_stays_variable :
    ∃ p, Program.parse "(new x)x<>" = .ok p ∧
      let sorted := ((p.run .bind).1.run .inferSortsBySpelling).1.run .identifySorts
      sorted.2.result.toBool = true ∧
      ∃ n ∈ sorted.1.process.restrictedNames, sorted.1.store.sort n = .var := by
  decide +kernel

end Program
end PiCalculus
