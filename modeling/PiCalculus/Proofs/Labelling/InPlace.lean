import Mathlib
import PiCalculus.Proofs.Process.BreadthFirst
import PiCalculus.Proofs.Reduction.Step
import PiCalculus.Proofs.Store.Writing

/-! Putting values for variables in place, one occurrence after the other as they are met. A name is
passed over where it is constant or has got its new label already, so that no write is refused, and in
the end all names have been relabelled as if at once. -/

namespace PiCalculus

namespace Store

/-- Relabels the name of one occurrence, unless it is constant or has been relabelled before. The
names that have been relabelled are kept. -/
def renameAt (vars values : List String) (s : Store) (renamed : List Name) (n : Name) :
    Written × List Name :=
  if s.isConstant n ∨ n ∈ renamed then (⟨s, none⟩, renamed)
  else
    match vars.idxOf? (s.label n) with
    | none => (⟨s, none⟩, renamed)
    | some i =>
      match s.setLabel n (values.getD i "") with
      | ⟨t, none⟩ => (⟨t, none⟩, n :: renamed)
      | stopped => (stopped, renamed)

/-- Relabels the names of occurrences in turn until a write is refused. -/
def renameEach (vars values : List String) : Store → List Name → List Name → Written
  | s, _, [] => ⟨s, none⟩
  | s, renamed, n :: ns =>
    match s.renameAt vars values renamed n with
    | (⟨t, none⟩, renamed') => renameEach vars values t renamed' ns
    | (stopped, _) => stopped

end Store

/-- The names that stand at sends and receives in the order in which the nodes are met breadth-first. -/
def Process.prefixNamesMet {ν : Type} (p : Process ν) : List ν :=
  p.breadthFirst.flatMap fun
    | .send chan names | .receive chan names _ => chan :: names
    | _ => []

/-- Puts values for variables in place. The labels are those that they have at the beginning. -/
def Store.substituteInPlace (s : Store) (p : Process Name) (vars values : List Name) : Written :=
  if values.length = vars.length then
    s.renameEach (vars.map s.label) (values.map s.label) [] p.prefixNamesMet
  else ⟨s, some (.unevenSubstitution values.length vars.length)⟩

theorem Process.mem_prefixNamesMet {ν : Type} {p : Process ν} {n : ν} :
    n ∈ p.prefixNamesMet ↔ n ∈ p.prefixNames := by
  have h : ∀ p : Process ν, n ∈ p.prefixNames ↔
      (n ∈ match p with
        | .send chan names | .receive chan names _ => chan :: names
        | _ => []) ∨ ∃ q ∈ p.children, n ∈ q.prefixNames := fun p => by
    cases p <;> simp [prefixNames, children, or_assoc]
  rw [prefixNamesMet, List.mem_flatMap, exists_mem_breadthFirst h]

/-- The label that is put is that of the value at the place of the first variable of the old label. -/
theorem substitution_eq {vars values : List String} (even : values.length = vars.length)
    (l : String) : substitution vars values l =
      match vars.idxOf? l with
      | some i => values.getD i ""
      | none => l := by
  unfold substitution
  induction vars generalizing values with
  | nil => rfl
  | cons x vars ih =>
    obtain ⟨v, values, rfl⟩ := List.exists_cons_of_length_eq_add_one even
    have hrest := ih (Nat.succ.inj even)
    rw [List.zip_cons_cons, List.lookup_cons, List.idxOf?_cons]
    by_cases hx : l = x
    · simp [hx]
    · have hb : (l == x) = false := by simpa using hx
      have hb' : (x == l) = false := by simpa using Ne.symm hx
      rw [hb, hb', hrest]
      cases vars.idxOf? l <;> rfl

namespace Store

variable {s t : Store} {n : Name} {seen renamed : List Name} {newLabel : String → String}

theorem modify_eq_self {f : Entry → Entry} (h : ∀ e, s.get? n = some e → f e = e) :
    s.modify n f = s := by
  apply ext_get? (s.size_modify n f)
  intro m
  rw [get?_modify]
  split
  · next heq =>
    subst heq
    cases he : s.get? m with
    | none => rfl
    | some e => rw [Option.map_some, h e he]
  · rfl

theorem size_relabel (s : Store) (names : List Name) (newLabel : String → String) :
    (s.relabel names newLabel).size = s.size := by
  unfold relabel
  generalize hs : s.size = k
  have hfold : ∀ t : Store, t.size = k → (names.foldl (fun t n => if s.isConstant n then t else
      t.modify n fun e => { e with label := newLabel (s.label n) }) t).size = k := by
    induction names with
    | nil => exact fun t ht => ht
    | cons n names ih =>
      intro t ht
      rw [List.foldl_cons]
      apply ih
      split
      · exact ht
      · rw [size_modify, ht]
  exact hfold s hs

/-- The order in which names are relabelled, and how often, does not matter. -/
theorem relabel_congr {names names' : List Name} (h : ∀ n, n ∈ names ↔ n ∈ names') :
    s.relabel names newLabel = s.relabel names' newLabel := by
  apply ext_get?
  · rw [size_relabel, size_relabel]
  · intro n
    rw [get?_relabel, get?_relabel]
    simp only [h n]

theorem relabel_concat (s : Store) (seen : List Name) (n : Name) (newLabel : String → String) :
    s.relabel (seen ++ [n]) newLabel =
      if s.isConstant n then s.relabel seen newLabel
      else (s.relabel seen newLabel).modify n fun e => { e with label := newLabel (s.label n) } := by
  unfold relabel
  rw [List.foldl_append]
  rfl

/-- How far a renaming in place has come: the names that were met have the new labels, and those
among them that had to be relabelled are kept as such. -/
structure Renames (s : Store) (vars : List String) (newLabel : String → String) (seen : List Name)
    (t : Store) (renamed : List Name) : Prop where
  store : t = s.relabel seen newLabel
  renamed : ∀ n, n ∈ renamed ↔ n ∈ seen ∧ s.isConstant n = false ∧ s.label n ∈ vars

/-- A name can be passed over if it has been relabelled, or if it keeps its label in any case. -/
theorem Renames.pass {vars values : List String}
    (h : s.Renames vars (substitution vars values) seen t renamed)
    (hn : s.isConstant n = true ∨ n ∈ renamed ∨ s.label n ∉ vars) :
    s.Renames vars (substitution vars values) (seen ++ [n]) t renamed := by
  obtain ⟨rfl, hrenamed⟩ := h
  have hmem : ∀ m, m ∈ seen ++ [n] ↔ m ∈ seen ∨ m = n := by simp
  have hconcat := s.relabel_concat seen n (substitution vars values)
  refine ⟨?_, fun m => ?_⟩
  -- Either way one more name to be relabelled makes no difference.
  · rcases hn with hc | hr | hl
    · rw [hconcat, if_pos hc]
    · have hseen := ((hrenamed n).mp hr).1
      exact relabel_congr fun m => by rw [hmem]; grind
    · rw [hconcat]
      split
      · rfl
      · have hfixed : substitution vars values (s.label n) = s.label n :=
          Process.substitution_of_notMem hl
        have hlabel : (s.relabel seen (substitution vars values)).label n = s.label n :=
          label_relabel_of_fixed fun _ => hfixed
        refine (modify_eq_self fun e he => ?_).symm
        rw [hfixed, ← hlabel, label, he]
        rfl
  · have hself := hrenamed n
    rw [hrenamed, hmem]
    grind

/-- Another occurrence is relabelled without a refusal. -/
theorem Renames.renameAt {vars values : List String} (even : values.length = vars.length)
    (h : s.Renames vars (substitution vars values) seen t renamed) (n : Name) :
    ∃ u renamed', t.renameAt vars values renamed n = (⟨u, none⟩, renamed') ∧
      s.Renames vars (substitution vars values) (seen ++ [n]) u renamed' := by
  have hpass := h.pass (n := n)
  obtain ⟨rfl, hrenamed⟩ := h
  have hconstant := s.isConstant_relabel seen (substitution vars values) n
  unfold Store.renameAt
  split
  · next hskip =>
    rw [hconstant] at hskip
    exact ⟨_, renamed, rfl, hpass (hskip.imp_right .inl)⟩
  · next hskip =>
    rw [hconstant, not_or, Bool.not_eq_true] at hskip
    obtain ⟨hc, hr⟩ := hskip
    -- A name that was met but not relabelled keeps its label, so that the label is still the old one.
    have hlabel : (s.relabel seen (substitution vars values)).label n = s.label n := by
      refine label_relabel_of_fixed fun hseen => Process.substitution_of_notMem fun hl => ?_
      exact hr ((hrenamed n).mpr ⟨hseen, hc, hl⟩)
    rw [hlabel]
    cases hi : vars.idxOf? (s.label n) with
    | none => exact ⟨_, renamed, rfl, hpass (.inr (.inr (List.idxOf?_eq_none_iff.mp hi)))⟩
    | some i =>
      have hnew := substitution_eq even (s.label n)
      rw [hi] at hnew
      dsimp only at hnew
      obtain ⟨hlt, hget, -⟩ := List.idxOf?_eq_some_iff.mp hi
      have hin : s.label n ∈ vars := hget ▸ List.getElem_mem hlt
      have hwrite : (s.relabel seen (substitution vars values)).setLabel n (values.getD i "") =
          ⟨s.relabel (seen ++ [n]) (substitution vars values), none⟩ := by
        rw [setLabel, Store.write, hconstant, hc, if_neg Bool.false_ne_true, relabel_concat, hc,
          if_neg Bool.false_ne_true, hnew]
      dsimp only
      rw [hwrite]
      refine ⟨_, n :: renamed, rfl, rfl, fun m => ?_⟩
      rw [List.mem_cons, hrenamed, List.mem_append, List.mem_singleton]
      grind

/-- No write is refused, and in the end all names that were met have been relabelled. -/
theorem Renames.renameEach {vars values : List String} (even : values.length = vars.length)
    (h : s.Renames vars (substitution vars values) seen t renamed) (ns : List Name) :
    t.renameEach vars values renamed ns =
      ⟨s.relabel (seen ++ ns) (substitution vars values), none⟩ := by
  induction ns generalizing seen t renamed with
  | nil => rw [Store.renameEach, h.store, List.append_nil]
  | cons n ns ih =>
    obtain ⟨u, renamed', hstep, hnext⟩ := h.renameAt even n
    rw [Store.renameEach, hstep]
    dsimp only
    rw [ih hnext, List.append_assoc, List.singleton_append]

/-- Putting values in place does what putting them all at once does. -/
theorem substituteInPlace_eq (s : Store) (p : Process Name) (vars values : List Name) :
    s.substituteInPlace p vars values = s.substitute p (vars.map s.label) (values.map s.label) := by
  unfold substituteInPlace substitute
  rw [List.length_map, List.length_map]
  split
  · next even =>
    have hstart : s.Renames (vars.map s.label)
        (substitution (vars.map s.label) (values.map s.label)) [] s [] := ⟨rfl, by simp⟩
    have heven : (values.map s.label).length = (vars.map s.label).length := by simpa using even
    rw [hstart.renameEach heven, List.nil_append,
      relabel_congr fun n => Process.mem_prefixNamesMet]
  · rfl

end Store

end PiCalculus
