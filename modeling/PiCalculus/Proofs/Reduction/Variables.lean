import Mathlib
import PiCalculus.Proofs.Labelling.Simultaneous
import PiCalculus.Proofs.Reduction.Privacy
import PiCalculus.Proofs.Reduction.Selection

/-! Which value a received variable stands for. Binding makes an occurrence the last variable of its
label, but a communication gives it the label of the value for the first one. They are the same
variable where the labels of a prefix are all different. -/

namespace PiCalculus

open Process

theorem isGreatest_of_find?_reverse {α : Type} {found : α → Bool} {l : List α} (nodup : l.Nodup)
    {i : Nat} {a : α} (hi : l[i]? = some a) (h : l.reverse.find? found = some a) :
    IsGreatest {j | ∃ b, l[j]? = some b ∧ found b} i := by
  obtain ⟨ha, k, hk, hka, hbefore⟩ := List.find?_eq_some_iff_getElem.mp h
  refine ⟨⟨a, hi, ha⟩, ?_⟩
  rintro j ⟨b, hj, hb⟩
  obtain ⟨hlt, rfl⟩ := List.getElem?_eq_some_iff.mp hj
  rw [List.length_reverse] at hk
  rw [List.getElem_reverse] at hka
  have hplace : i = l.length - 1 - k := by
    refine (List.getElem?_inj (List.getElem?_eq_some_iff.mp hi).1 nodup).mp ?_
    rw [hi, ← hka, List.getElem?_eq_getElem]
  by_contra hbehind
  have hmissed := hbefore (l.length - 1 - j) (by omega)
  have hindex : l.length - 1 - (l.length - 1 - j) = j := by omega
  simp [List.getElem_reverse, hindex, hb] at hmissed

namespace Store.Bound

variable {s : Store} {p : Process Name} {path : List Nat} {ps : List (Process Name)}
  {r : Redex Name} {x : Name} {i : Nat}

/-- A variable that occurs in the continuation is used there, and not introduced again. -/
theorem mem_usedNames_body (h : s.Bound p) (hr : s.redex? p = some (path, ps, r)) (hx : x ∈ r.vars)
    (hocc : x ∈ r.body.occurrences) :
    x ∈ r.body.usedNames ∧ Scope.lookup s.label r.vars.reverse x = some x ∧ r.vars.Nodup := by
  obtain ⟨hleads, -, other, hreceive, -⟩ := of_redex? hr
  obtain ⟨scope, hpar, hnodup⟩ := h.resolved.leads hleads h.nodup
  obtain ⟨inner, hwell, hnodup⟩ := hpar.leads (.of_getElem? hreceive (.here _)) hnodup
  rw [binders] at hnodup
  rw [WellBound] at hwell
  obtain ⟨hvars, -, hapart⟩ := List.nodup_append.mp (List.Nodup.of_append_right hnodup)
  have hout : x ∉ r.body.binders := fun hb => hapart x hx x hb rfl
  have hused : x ∈ r.body.usedNames :=
    (List.mem_append.mp (r.body.occurrences_perm.mem_iff.mp hocc)).resolve_left hout
  refine ⟨hused, ?_, hvars⟩
  have hresolved := hwell.2.isResolved_of_used hused hout
  unfold IsResolved at hresolved
  rw [Scope.lookup_append] at hresolved
  -- Whatever the label finds among the variables comes before all else, and it finds something
  -- there.
  cases hfound : Scope.lookup s.label r.vars.reverse x with
  | none =>
    have hnone := Scope.lookup_eq_none.mp hfound
    rw [List.map_reverse, List.mem_reverse] at hnone
    exact absurd (List.mem_map_of_mem hx) hnone
  | some b => simpa [hfound] using hresolved

/-- It is the last variable of its label. -/
theorem isGreatest_of_mem_body (h : s.Bound p) (hr : s.redex? p = some (path, ps, r))
    (hi : r.vars[i]? = some x) (hocc : x ∈ r.body.occurrences) :
    IsGreatest (s.placesOfLabel r.vars x) i := by
  obtain ⟨-, hlookup, hvars⟩ := h.mem_usedNames_body hr (List.mem_of_getElem? hi) hocc
  have hset : s.placesOfLabel r.vars x =
      {j : Nat | ∃ b, r.vars[j]? = some b ∧ decide (s.label b = s.label x)} := by
    simp [placesOfLabel, List.getElem?_map]
  rw [hset]
  exact isGreatest_of_find?_reverse hvars hi hlookup

/-- It gets the label of the value for the first variable of its label. -/
theorem label_relabel_of_mem_body (h : s.Bound p) (hr : s.redex? p = some (path, ps, r))
    (even : r.values.length = r.vars.length) (hx : x ∈ r.vars) (hocc : x ∈ r.body.occurrences) :
    ∃ j w, IsLeast (s.placesOfLabel r.vars x) j ∧ r.values[j]? = some w ∧
      (s.relabel r.body.prefixNames
        (substitution (r.vars.map s.label) (r.values.map s.label))).label x = s.label w := by
  obtain ⟨hused, -⟩ := h.mem_usedNames_body hr hx hocc
  obtain ⟨j, hj⟩ := exists_isLeast_placesOfLabel (List.mem_map_of_mem (f := s.label) hx)
  obtain ⟨w, hw, hlabel⟩ := substitution_of_isLeast even hj
  obtain ⟨other, hat⟩ := at?_receiver hr
  have hmem : x ∈ p.occurrences := by
    refine gathers_occurrences.subset_of_at? hat ?_
    rw [occurrences]
    exact List.mem_cons_of_mem _ (List.mem_append_left _ hx)
  refine ⟨j, w, hj, hw, ?_⟩
  rw [h.label_relabel_reduct hmem, Redex.newLabel, if_pos (usedNames_subset_prefixNames _ hused),
    hlabel]

end Store.Bound

namespace Program

/-- An occurrence of a variable in the continuation is the last variable of its label. It gets the
label of the value for the first variable of that label. -/
theorem reduceOnce_label_of_variable {source : String} {p : Program} {q : Reduct}
    (parsed : Program.parse source = .ok p)
    (reduced : p.store.reduceOnce (p.process.bind p.store.label) = .ok (some q)) :
    ∀ way ps i j chan values other vars body,
      (p.process.bind p.store.label).Descends way (.par ps) → p.store.Selects ps i j →
      ps[i]? = some (.send chan values) → ps[j]? = some (.receive other vars body) →
      values.length = vars.length ∧ q.process.at? (way ++ [j]) = some body ∧
        ∀ (k : Nat) (x : Name), vars[k]? = some x → x ∈ body.occurrences →
          IsGreatest (p.store.placesOfLabel vars x) k ∧
            ∃ m w, IsLeast (p.store.placesOfLabel vars x) m ∧ values[m]? = some w ∧
              q.store.label x = p.store.label w := by
  intro way ps i j chan values other vars body d pair send receive
  have hbound := bound_of_parse parsed
  have hr := Store.redex?_of_selects d pair send receive
  obtain ⟨path, ps', r, hr', even, rfl⟩ := Store.of_reduceOnce reduced
  rw [hr] at hr'
  cases hr'
  have hne : i ≠ j := by
    rintro rfl
    rw [send] at receive
    cases receive
  have hcommunicated := d.leads.communicated (List.getElem?_eq_some_iff.mp send).1
    (List.getElem?_eq_some_iff.mp receive).1 hne body
  refine ⟨even, hcommunicated.receiver, fun k x hk hx => ⟨?_, ?_⟩⟩
  · exact hbound.isGreatest_of_mem_body hr hk hx
  · exact hbound.label_relabel_of_mem_body hr even (List.mem_of_getElem? hk) hx

theorem reduceOnce_label_of_variable_nested :
    ∃ p q, Program.parse "c<p,q,r> | c(x,y,x).(x<y> | y(y).x<y>)" = .ok p ∧
      p.store.reduceOnce (p.process.bind p.store.label) = .ok (some q) ∧
      ∃ way ps i j chan values other vars body,
        (p.process.bind p.store.label).Descends way (.par ps) ∧ p.store.Selects ps i j ∧
        ps[i]? = some (.send chan values) ∧ ps[j]? = some (.receive other vars body) ∧
        values.length = vars.length ∧ q.process.at? (way ++ [j]) = some body ∧
        ∃ (k : Nat) (x : Name), vars[k]? = some x ∧ x ∈ body.occurrences ∧
          IsGreatest (p.store.placesOfLabel vars x) k ∧
            ∃ m w, IsLeast (p.store.placesOfLabel vars x) m ∧ values[m]? = some w ∧
              q.store.label x = p.store.label w := by
  obtain ⟨p, parsed, hdue⟩ : ∃ p,
      Program.parse "c<p,q,r> | c(x,y,x).(x<y> | y(y).x<y>)" = .ok p ∧
      (p.store.redex? (p.process.bind p.store.label)).any fun found =>
        found.2.2.values.length = found.2.2.vars.length ∧
          found.2.2.vars[2]?.any (· ∈ found.2.2.body.occurrences) := by decide +kernel
  obtain ⟨⟨way, ps, r⟩, hr, hfound⟩ := (Option.any_eq_true _ _).mp hdue
  obtain ⟨even, hthird⟩ := of_decide_eq_true hfound
  obtain ⟨x, hx, hmem⟩ := (Option.any_eq_true _ _).mp hthird
  obtain ⟨d, pair⟩ := Store.selects_of_redex? hr
  obtain ⟨-, send, other, receive, -⟩ := Store.of_redex? hr
  have reduced := Store.reduceOnce_of_redex? hr even
  obtain ⟨-, hplace, hlabel⟩ := reduceOnce_label_of_variable parsed reduced way ps _ _ _ _ _ _ _ d
    pair send receive
  exact ⟨p, _, parsed, reduced, way, ps, _, _, _, _, _, _, _, d, pair, send, receive, even, hplace,
    2, x, hx, of_decide_eq_true hmem, hlabel 2 x hx (of_decide_eq_true hmem)⟩

/-- The occurrence of the second variable gets the label of the first value. -/
theorem second_variable_gets_first_value :
    ∃ p q, Program.parse "a<p,q> | a(x,x).x<>" = .ok p ∧
      p.store.reduceOnce (p.process.bind p.store.label) = .ok (some q) ∧
      ∃ way ps i j chan values other vars body,
        (p.process.bind p.store.label).Descends way (.par ps) ∧ p.store.Selects ps i j ∧
        ps[i]? = some (.send chan values) ∧ ps[j]? = some (.receive other vars body) ∧
        ∃ x v, vars[1]? = some x ∧ values[1]? = some v ∧ x ∈ body.occurrences ∧
          q.store.label x = "p" ∧ p.store.label v = "q" := by
  obtain ⟨p, parsed, hdue⟩ : ∃ p, Program.parse "a<p,q> | a(x,x).x<>" = .ok p ∧
      (p.store.redex? (p.process.bind p.store.label)).any fun found =>
        found.2.2.values.length = found.2.2.vars.length ∧
          found.2.2.vars[1]?.any fun x => found.2.2.values[1]?.any fun v =>
            x ∈ found.2.2.body.occurrences ∧ p.store.label v = "q" ∧
              (p.store.relabel found.2.2.body.prefixNames
                (substitution (found.2.2.vars.map p.store.label)
                  (found.2.2.values.map p.store.label))).label x = "p" := by decide +kernel
  obtain ⟨⟨way, ps, r⟩, hr, hfound⟩ := (Option.any_eq_true _ _).mp hdue
  obtain ⟨even, hsecond⟩ := of_decide_eq_true hfound
  obtain ⟨x, hx, hvalue⟩ := (Option.any_eq_true _ _).mp hsecond
  obtain ⟨v, hv, hlabels⟩ := (Option.any_eq_true _ _).mp hvalue
  obtain ⟨hmem, hsent, hgot⟩ := of_decide_eq_true hlabels
  obtain ⟨d, pair⟩ := Store.selects_of_redex? hr
  obtain ⟨-, send, other, receive, -⟩ := Store.of_redex? hr
  exact ⟨p, _, parsed, Store.reduceOnce_of_redex? hr even, way, ps, _, _, _, _, _, _, _, d, pair, send,
    receive, x, v, hx, hv, hmem, hgot, hsent⟩

end Program

end PiCalculus
