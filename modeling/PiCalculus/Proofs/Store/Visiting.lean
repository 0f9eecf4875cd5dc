import Mathlib
import PiCalculus.Proofs.Store.Loops

/-! Following references with a list of the names that have been visited. Such a loop stops at a visited
name, so it ends in every store: each step leaves one name fewer to visit. What is looked for along a
chain, at its end, or below it, is found by one loop, and it is what the chain tells that is cut after
as many names as there are. -/

namespace PiCalculus

namespace Store

section loop

variable {s : Store} {visited : List Name} {n : Name} {t : Ty Name}

/-- How many names there are that have not been visited. -/
def unvisited (s : Store) (visited : List Name) : Nat :=
  ((Finset.range s.size).filter fun i => (⟨i⟩ : Name) ∉ visited).card

theorem unvisited_lt (h : s.next visited n = some t) :
    s.unvisited (n :: visited) < s.unvisited visited := by
  obtain ⟨hn, live, -⟩ := isLive_of_next h
  apply Finset.card_lt_card
  refine ⟨fun i hi => ?_, fun hsub => ?_⟩
  · rw [Finset.mem_filter] at hi ⊢
    exact ⟨hi.1, fun hmem => hi.2 (List.mem_cons_of_mem _ hmem)⟩
  · have hin : n.id ∈ (Finset.range s.size).filter fun i => (⟨i⟩ : Name) ∉ visited :=
      Finset.mem_filter.mpr ⟨Finset.mem_range.mpr (id_lt_of_isLive live), hn⟩
    exact (Finset.mem_filter.mp (hsub hin)).2 List.mem_cons_self

variable {α : Type}

/-- Follows references from a type on. A name may have an answer where it is met, before it is seen
whether it was visited or is dropped; otherwise the loop breaks there. Where it arrives at a type that
is no reference, the visited names are given, the last one first. -/
def visit (s : Store) (meet : Name → Option α) (broken : α) (arrive : List Name → Ty Name → α)
    (visited : List Name) : Ty Name → α
  | .reference n =>
    match meet n with
    | some a => a
    | none =>
      match _ : s.next visited n with
      | none => broken
      | some t => s.visit meet broken arrive (n :: visited) t
  | t => arrive visited t
termination_by s.unvisited visited
decreasing_by exact unvisited_lt ‹_›

variable {meet : Name → Option α} {broken : α} {arrive : List Name → Ty Name → α}

theorem visit_of_ne_reference (h : ∀ n, t ≠ .reference n) :
    s.visit meet broken arrive visited t = arrive visited t := by
  cases t with
  | reference n => exact absurd rfl (h n)
  | _ => rw [visit]; simp

theorem visit_reference (n : Name) : s.visit meet broken arrive visited (.reference n) =
    match meet n with
    | some a => a
    | none =>
      match s.next visited n with
      | none => broken
      | some t => s.visit meet broken arrive (n :: visited) t := by
  rw [visit]
  cases meet n with
  | some a => rfl
  | none =>
    dsimp only
    split
    · next h => rw [h]
    · next h => rw [h]

end loop

/-- What a chain answers to the loop: the first answer of a name that it passes, or else what is found
where it ends. -/
def answer {α : Type} (meet : Name → Option α) (broken : α) (arrive : List Name → Ty Name → α)
    (visited : List Name) (c : Chain) : α :=
  match c.names.findSome? meet, c.last with
  | some a, _ => a
  | none, none => broken
  | none, some t => arrive (c.names.reverse ++ visited) t

section chain

variable {s : Store} {visited : List Name} {n : Name} {t : Ty Name}

/-- Each of these names refers to one of them. -/
def Closed (s : Store) (visited : List Name) : Prop :=
  ∀ a ∈ visited, ∃ b ∈ visited, s.type a = .reference b

theorem Closed.chainWithin (h : s.Closed visited) (hn : n ∈ visited) (k : Nat) :
    (s.chainWithin k (.reference n)).last = none ∧
      (s.chainWithin k (.reference n)).names ⊆ visited := by
  induction k generalizing n with
  | zero => exact ⟨rfl, List.nil_subset _⟩
  | succ k ih =>
    obtain ⟨m, hm, htype⟩ := h n hn
    rw [Store.chainWithin]
    cases he : s.get? n with
    | none =>
      rw [type_of_get?_none he] at htype
      cases htype
    | some e =>
      rw [type_of_get? he] at htype
      obtain ⟨hlast, hnames⟩ := ih hm
      rw [← htype] at hlast hnames
      exact ⟨hlast, List.cons_subset.mpr ⟨hn, hnames⟩⟩

/-- Each visited name refers to one of them, or to the name that comes next. -/
def LeadTo (s : Store) (visited : List Name) (n : Name) : Prop :=
  ∀ a ∈ visited, ∃ b ∈ n :: visited, s.type a = .reference b

theorem LeadTo.closed (h : s.LeadTo visited n) (hn : n ∈ visited) : s.Closed visited := by
  intro a ha
  obtain ⟨b, hb, htype⟩ := h a ha
  rcases List.mem_cons.mp hb with rfl | hb
  · exact ⟨b, hn, htype⟩
  · exact ⟨b, hb, htype⟩

theorem LeadTo.cons {m : Name} (h : s.LeadTo visited n) (hm : s.type n = .reference m) :
    s.LeadTo (n :: visited) m := by
  intro a ha
  rcases List.mem_cons.mp ha with rfl | ha
  · exact ⟨m, List.mem_cons_self, hm⟩
  · obtain ⟨b, hb, htype⟩ := h a ha
    exact ⟨b, List.mem_cons_of_mem m hb, htype⟩

variable {α : Type} {meet : Name → Option α} {broken : α} {arrive : List Name → Ty Name → α}

theorem answer_of_last {c : Chain} (hlast : c.last = none) (hnames : ∀ a ∈ c.names, meet a = none) :
    answer meet broken arrive visited c = broken := by
  rw [answer, List.findSome?_eq_none_iff.mpr hnames, hlast]

theorem answer_cons {ns : List Name} {last : Option (Ty Name)} (hn : meet n = none) :
    answer meet broken arrive visited ⟨n :: ns, last⟩ =
      answer meet broken arrive (n :: visited) ⟨ns, last⟩ := by
  simp only [answer, List.findSome?_cons, hn, List.reverse_cons, List.append_assoc,
    List.singleton_append]

/-- The loop finds what the chain answers that is cut where every name has been visited. -/
theorem visit_eq_answer {k : Nat} (habove : s.Above visited) (hk : s.size ≤ k + visited.length)
    (hlead : ∀ n, t = .reference n → s.LeadTo visited n) (hvisited : ∀ a ∈ visited, meet a = none)
    (hmeet : ∀ n, meet n ≠ none → n.id < s.size) :
    s.visit meet broken arrive visited t =
      answer meet broken arrive visited (s.chainWithin k t) := by
  -- The chain is not stopped at a visited name, but it finds nothing but visited names from there on.
  induction k generalizing visited t with
  | zero =>
    cases t with
    | reference n =>
      have hall : s.size ≤ visited.length := by omega
      have hnone : meet n = none := by
        by_contra hn
        exact hn (hvisited n (habove.mem_of_size_le hall (hmeet n hn)))
      rw [visit_reference, hnone, habove.next_eq_none hall]
      rfl
    | _ => exact visit_of_ne_reference (by simp)
  | succ k ih =>
    cases t with
    | reference n =>
      rw [visit_reference]
      cases hm : meet n with
      | some a =>
        rw [chainWithin]
        cases s.get? n <;> simp [answer, hm]
      | none =>
        by_cases hn : n ∈ visited
        · obtain ⟨hlast, hnames⟩ := ((hlead n rfl).closed hn).chainWithin hn (k + 1)
          rw [next_of_mem hn, answer_of_last hlast fun a ha => hvisited a (hnames ha)]
        · rw [chainWithin]
          cases he : s.get? n with
          | none =>
            have hnext : s.next visited n = none := by
              rw [next, if_neg (mt List.contains_iff_mem.mp hn), he, Option.map_none]
            rw [hnext, answer_of_last rfl (by simpa using hm)]
          | some e =>
            rw [next_of_notMem hn he, answer_cons hm]
            apply ih (habove.cons hn (isLive_of_get? he))
            · rw [List.length_cons]
              omega
            · exact fun m hm => (hlead n rfl).cons ((type_of_get? he).trans hm)
            · exact List.forall_mem_cons.mpr ⟨hm, hvisited⟩
    | _ => exact visit_of_ne_reference (by simp)

end chain

/-- A piece of text, and the names that were followed down to where it is written, the last one first. -/
structure Writing where
  followed : List Name
  text : String

/-- What is written of a type below some names, piece by piece. -/
def writings (s : Store) (followed : List Name) : Ty Name → List Writing
  | .untyped => [⟨followed, "interface\x7b\x7d"⟩]
  | .base label => [⟨followed, label⟩]
  | .chan t => ⟨followed, "chan "⟩ :: s.writings followed t
  | .composite ts =>
    let fields := (ts.map (s.writings followed)).mapIdx fun i ws =>
      ⟨followed, "e" ++ toString i ++ " "⟩ :: ws
    ⟨followed, "struct\x7b"⟩ :: ([⟨followed, ";"⟩].intercalate fields ++ [⟨followed, "\x7d"⟩])
  | .reference n =>
    match _ : s.next followed n with
    | none => [⟨followed, "interface\x7b\x7d"⟩]
    | some t => s.writings (n :: followed) t
termination_by t => (s.unvisited followed, sizeOf t)
decreasing_by
  · exact .right _ (by simp)
  · exact .right _ (by have := List.sizeOf_lt_of_mem ‹_ ∈ ts›; simp; omega)
  · exact .left _ _ (unvisited_lt ‹_›)

/-- The text that was written in pieces. -/
def written (ws : List Writing) : String := String.join (ws.map (·.text))

/-- The text of a type below some names. -/
def display (s : Store) (followed : List Name) (t : Ty Name) : String :=
  written (s.writings followed t)

section display

variable {s : Store} {followed visited : List Name} {n : Name} {t : Ty Name}

@[simp] theorem written_nil : written [] = "" := rfl

@[simp] theorem written_cons (w : Writing) (ws : List Writing) :
    written (w :: ws) = w.text ++ written ws := by
  simp [written]

@[simp] theorem written_append (ws ws' : List Writing) :
    written (ws ++ ws') = written ws ++ written ws' := by
  simp [written]

theorem written_intercalate (between : Writing) (fields : List (List Writing)) :
    written ([between].intercalate fields) = between.text.intercalate (fields.map written) := by
  induction fields with
  | nil => rfl
  | cons first rest ih =>
    cases rest with
    | nil => simp [List.intercalate]
    | cons second rest =>
      simp only [List.map_cons] at ih ⊢
      rw [List.intercalate_cons_cons, String.intercalate_cons_cons, ← ih]
      simp [String.append_assoc]

theorem map_written_fields (followed : List Name) (fields : List (List Writing)) :
    (fields.mapIdx fun i ws => (⟨followed, "e" ++ toString i ++ " "⟩ : Writing) :: ws).map written =
      (fields.map written).mapIdx fun i text => "e" ++ toString i ++ " " ++ text :=
  List.ext_getElem (by simp) fun i _ _ => by simp

theorem display_eq (h : s.Above followed) (t : Ty Name) :
    s.display followed t = (s.unfoldBelow followed t).render := by
  rw [display]
  fun_induction writings s followed t with
  | case1 followed =>
    rw [unfoldBelow_untyped, Ty.render]
    rfl
  | case2 followed label =>
    rw [unfoldBelow_base, Ty.render]
    simp
  | case3 followed t ih =>
    rw [unfoldBelow_chan, Ty.render, ← ih h]
    simp
  | case4 followed ts ih =>
    have htexts : (ts.map (s.writings followed)).map written =
        (ts.map (s.unfoldBelow followed)).map Ty.render := by
      rw [List.map_map, List.map_map]
      exact List.map_congr_left fun t ht => ih t ht h
    rw [unfoldBelow_composite, Ty.render, ← htexts, ← map_written_fields followed]
    dsimp only
    rw [written_cons, written_append, written_intercalate, written_cons, written_nil,
      String.append_empty, ← String.append_assoc]
  | case5 followed n hnext =>
    rw [unfoldBelow_reference h, hnext, Ty.render]
    rfl
  | case6 followed n t hnext ih =>
    obtain ⟨hn, live, -⟩ := isLive_of_next hnext
    rw [unfoldBelow_reference h, hnext]
    exact ih (h.cons hn live)

theorem mem_intercalate {α : Type} {between a : α} {fields : List (List α)}
    (h : a ∈ [between].intercalate fields) : a = between ∨ ∃ as ∈ fields, a ∈ as := by
  induction fields with
  | nil => simp [List.intercalate] at h
  | cons first rest ih =>
    cases rest with
    | nil => exact .inr ⟨first, List.mem_cons_self, by simpa [List.intercalate] using h⟩
    | cons second rest =>
      rw [List.intercalate_cons_cons, List.mem_append, List.mem_append, List.mem_singleton] at h
      rcases h with (h | h) | h
      · exact .inr ⟨first, List.mem_cons_self, h⟩
      · exact .inl h
      · exact (ih h).imp id fun ⟨as, has, h⟩ => ⟨as, List.mem_cons_of_mem first has, h⟩

/-- No name is followed twice on the way to a place where something is written. -/
theorem nodup_followed (h : followed.Nodup) {w : Writing} (hw : w ∈ s.writings followed t) :
    w.followed.Nodup := by
  fun_induction writings s followed t with
  | case1 followed => exact List.mem_singleton.mp hw ▸ h
  | case2 followed label => exact List.mem_singleton.mp hw ▸ h
  | case3 followed t ih =>
    rcases List.mem_cons.mp hw with rfl | hw
    · exact h
    · exact ih h hw
  | case4 followed ts ih =>
    rcases List.mem_cons.mp hw with rfl | hw
    · exact h
    rcases List.mem_append.mp hw with hw | hw
    · rcases mem_intercalate hw with rfl | ⟨ws, hws, hw⟩
      · exact h
      · obtain ⟨i, hi, rfl⟩ := List.mem_mapIdx.mp hws
        rcases List.mem_cons.mp hw with rfl | hw
        · exact h
        · rw [List.getElem_map] at hw
          exact ih _ (List.getElem_mem _) h hw
    · exact List.mem_singleton.mp hw ▸ h
  | case5 followed n hnext => exact List.mem_singleton.mp hw ▸ h
  | case6 followed n t hnext ih =>
    exact ih (List.nodup_cons.mpr ⟨(isLive_of_next hnext).1, h⟩) hw

theorem display_reference (n : Name) : s.display followed (.reference n) =
    match s.next followed n with
    | none => "interface\x7b\x7d"
    | some t => s.display (n :: followed) t := by
  rw [display, writings]
  split
  · next h => rw [h]; rfl
  · next h => rw [h]; rfl

/-- What is displayed of a type is displayed where the loop arrives. -/
theorem display_eq_visit (visited : List Name) (t : Ty Name) : s.display visited t =
    s.visit (fun _ => none) "interface\x7b\x7d" s.display visited t := by
  fun_induction visit s (fun _ => none) "interface\x7b\x7d" s.display visited t with
  | case1 visited n a h => cases h
  | case2 visited n _ hnext => rw [display_reference, hnext]
  | case3 visited n _ t hnext ih => rw [display_reference, hnext, ← ih]
  | case4 visited t => rfl

end display

section ends

variable {s : Store} {visited : List Name} {n m : Name} {t u : Ty Name} {ns : List Name}

/-- The chain of references from a type on passes a name. -/
def Passes (s : Store) (t : Ty Name) (n : Name) : Prop :=
  ∃ m, t = .reference m ∧ Relation.ReflTransGen s.Forwards m n

/-- The chain from a type on reaches a name that is dropped. -/
def Dangles (s : Store) (t : Ty Name) : Prop := ∃ n, s.Passes t n ∧ s.isLive n = false

/-- The chain from a type on reaches a name from which it comes back to it. -/
def LoopsFrom (s : Store) (t : Ty Name) : Prop :=
  ∃ n, s.Passes t n ∧ Relation.TransGen s.Forwards n n

theorem next_eq_none_iff : s.next visited n = none ↔ n ∈ visited ∨ s.isLive n = false := by
  rw [next, isLive]
  by_cases hn : n ∈ visited
  · simp [hn]
  · simp [hn]

theorem passes_reference : s.Passes (.reference n) m ↔ m = n ∨ s.Passes (s.type n) m := by
  constructor
  · rintro ⟨a, ha, path⟩
    obtain rfl := Ty.reference.inj ha
    rcases path.cases_head with rfl | ⟨c, hc, rest⟩
    · exact .inl rfl
    · exact .inr ⟨c, hc, rest⟩
  · rintro (rfl | ⟨c, hc, rest⟩)
    · exact ⟨m, rfl, .refl⟩
    · exact ⟨n, rfl, .head hc rest⟩

theorem not_passes_of_ne_reference (h : ∀ n, t ≠ .reference n) : ¬ s.Passes t m := by
  rintro ⟨a, ha, -⟩
  exact h a ha

theorem Closed.mem_of_passes (h : s.Closed visited) (hn : n ∈ visited)
    (hm : s.Passes (.reference n) m) : m ∈ visited := by
  obtain ⟨a, ha, path⟩ := hm
  obtain rfl := Ty.reference.inj ha
  induction path with
  | refl => exact hn
  | tail _ hstep ih =>
    obtain ⟨b, hb, htype⟩ := h _ ih
    rw [Forwards, htype] at hstep
    exact Ty.reference.inj hstep ▸ hb

/-- The loop that looks for a name finds it if the chain passes it. -/
theorem visit_refers_iff (hlead : ∀ m, t = .reference m → s.LeadTo visited m) (hn : n ∉ visited) :
    s.visit (fun m => if m = n then some true else none) false (fun _ _ => false) visited t = true ↔
      s.Passes t n := by
  fun_induction visit s (fun m => if m = n then some true else none) false (fun _ _ => false) visited t with
  | case1 visited m a h =>
    obtain ⟨rfl, rfl⟩ : m = n ∧ true = a := by simpa using h
    exact ⟨fun _ => ⟨m, rfl, .refl⟩, fun _ => rfl⟩
  | case2 visited m hm hnext =>
    have hne : n ≠ m := by
      rintro rfl
      simp at hm
    refine ⟨nofun, fun h => ?_⟩
    -- From a visited name the chain passes visited names only, and from a dropped one none.
    rcases next_eq_none_iff.mp hnext with hmem | hdead
    · exact absurd (((hlead m rfl).closed hmem).mem_of_passes hmem h) hn
    · rw [passes_reference, type_of_not_isLive hdead] at h
      exact absurd (h.resolve_left hne) (not_passes_of_ne_reference (by simp))
  | case3 visited m hm u hnext ih =>
    obtain ⟨-, -, rfl⟩ := isLive_of_next hnext
    have hne : n ≠ m := by
      rintro rfl
      simp at hm
    rw [passes_reference, or_iff_right hne]
    exact ih (fun b hb => (hlead m rfl).cons hb) (by simp [hne, hn])
  | case4 visited t hne =>
    exact ⟨nofun, fun h => absurd h (not_passes_of_ne_reference hne)⟩

/-- A chain has an end, or it reaches a dropped name, or it loops. -/
theorem follows_or_breaks (visited : List Name)
    (hlead : ∀ m, t = .reference m → ∀ a ∈ visited, Relation.TransGen s.Forwards a m) :
    (∃ ns u, s.Follows t ns u) ∨ s.Dangles t ∨ s.LoopsFrom t := by
  fun_induction visit s (fun _ => none) () (fun _ _ => ()) visited t with
  | case1 visited m a h => cases h
  | case2 visited m _ hnext =>
    have hself : s.Passes (.reference m) m := ⟨m, rfl, .refl⟩
    rcases next_eq_none_iff.mp hnext with hmem | hdead
    · exact .inr (.inr ⟨m, hself, hlead m rfl m hmem⟩)
    · exact .inr (.inl ⟨m, hself, hdead⟩)
  | case3 visited m _ u hnext ih =>
    obtain ⟨-, live, rfl⟩ := isLive_of_next hnext
    obtain ⟨e, he⟩ := Option.isSome_iff_exists.mp live
    have hmore : ∀ b, s.type m = .reference b → ∀ a ∈ m :: visited,
        Relation.TransGen s.Forwards a b := fun b hb =>
      List.forall_mem_cons.mpr ⟨.single hb, fun a ha => (hlead m rfl a ha).tail hb⟩
    rcases ih hmore with ⟨ns, u, h⟩ | ⟨a, ha, hdead⟩ | ⟨a, ha, hloop⟩
    · rw [type_of_get? he] at h
      exact .inl ⟨_, _, .step he h⟩
    · exact .inr (.inl ⟨a, passes_reference.mpr (.inr ha), hdead⟩)
    · exact .inr (.inr ⟨a, passes_reference.mpr (.inr ha), hloop⟩)
  | case4 visited t hne => exact .inl ⟨[], t, .done hne⟩

namespace Follows

theorem mem_of_passes (h : s.Follows t ns u) (hm : s.Passes t m) : m ∈ ns := by
  induction h with
  | done hne => exact absurd hm (not_passes_of_ne_reference hne)
  | step he rest ih =>
    rw [passes_reference, type_of_get? he] at hm
    rcases hm with rfl | hm
    · exact List.mem_cons_self
    · exact List.mem_cons_of_mem _ (ih hm)

theorem not_dangles (h : s.Follows t ns u) : ¬ s.Dangles t := by
  rintro ⟨m, hm, hdead⟩
  have hlive := h.isLive m (h.mem_of_passes hm)
  rw [hdead] at hlive
  cases hlive

theorem not_loopsFrom (h : s.Follows t ns u) : ¬ s.LoopsFrom t := by
  rintro ⟨m, hm, hloop⟩
  obtain ⟨rest, hfollows, -⟩ := h.of_mem (h.mem_of_passes hm)
  have hnodup := (List.nodup_cons.mp hfollows.nodup).1
  cases hfollows with
  | step he hrest =>
    obtain ⟨c, hc, path⟩ := Relation.TransGen.head'_iff.mp hloop
    rw [Forwards, type_of_get? he] at hc
    exact hnodup (hrest.mem_of_passes ⟨c, hc, path⟩)

end Follows

theorem terminal?_eq_none_iff :
    s.terminal? t = none ↔ (∀ n, t ≠ .reference n) ∨ s.Dangles t ∨ s.LoopsFrom t := by
  constructor
  · intro hnone
    rcases follows_or_breaks [] (t := t) (by simp) with ⟨ns, u, h⟩ | hbreaks
    · left
      rw [h.terminal?_eq, List.getLast?_eq_none_iff] at hnone
      subst hnone
      exact h.eq_of_nil ▸ h.ne_reference
    · exact .inr hbreaks
  · intro hends
    refine Option.eq_none_iff_forall_ne_some.mpr fun n hn => ?_
    obtain ⟨ns, u, h, hlast⟩ := terminal?_eq_some_iff.mp hn
    rcases hends with hne | hdangles | hloops
    · cases h with
      | done => cases hlast
      | step => exact hne _ rfl
    · exact h.not_dangles hdangles
    · exact h.not_loopsFrom hloops

theorem deref_eq_untyped_of_breaks (h : s.Dangles t ∨ s.LoopsFrom t) : s.deref t = .untyped := by
  refine deref_eq_untyped_of_last (Option.eq_none_iff_forall_ne_some.mpr fun u hu => ?_)
  obtain ⟨ns, hfollows⟩ := last_chain_eq_some_iff.mp hu
  exact h.elim hfollows.not_dangles hfollows.not_loopsFrom

end ends

section results

variable {s : Store} {t : Ty Name} {α : Type} {meet : Name → Option α} {broken : α}
  {arrive : List Name → Ty Name → α}

theorem visit_nil_eq_answer (hmeet : ∀ n, meet n ≠ none → n.id < s.size) :
    s.visit meet broken arrive [] t = answer meet broken arrive [] (s.chain t) :=
  visit_eq_answer above_nil (Nat.le_add_right _ _) (by simp [LeadTo]) (by simp) hmeet

theorem answer_of_meets_none (c : Chain) : answer (fun _ => none) broken arrive [] c =
    match c.last with
    | none => broken
    | some t => arrive c.names.reverse t := by
  rw [answer, List.findSome?_eq_none_iff.mpr fun _ _ => rfl]
  cases c.last with
  | none => rfl
  | some t => simp

theorem visit_deref (s : Store) (t : Ty Name) :
    s.visit (fun _ => none) .untyped (fun _ u => u) [] t = s.deref t := by
  rw [visit_nil_eq_answer (by simp), answer_of_meets_none, deref]
  cases (s.chain t).last <;> rfl

theorem visit_terminal? (s : Store) (t : Ty Name) :
    s.visit (fun _ => none) none (fun visited _ => visited.head?) [] t = s.terminal? t := by
  rw [visit_nil_eq_answer (by simp), answer_of_meets_none, terminal?]
  cases (s.chain t).last <;> simp

theorem visit_refersTo (t : Ty Name) {n : Name} (hn : n.id < s.size) :
    s.visit (fun m => if m = n then some true else none) false (fun _ _ => false) [] t =
      s.refersTo t n := by
  have hfound : ∀ ns : List Name, (ns.findSome? fun m => if m = n then some true else none) =
      if n ∈ ns then some true else none := by
    intro ns
    induction ns with
    | nil => rfl
    | cons m ns ih =>
      rw [List.findSome?_cons, ih]
      by_cases hm : m = n
      · simp [hm]
      · simp [hm, Ne.symm hm]
  rw [visit_nil_eq_answer (by simpa using hn), answer, hfound, refersTo]
  by_cases hmem : n ∈ (s.chain t).names
  · rw [if_pos hmem]
    exact (List.contains_iff_mem.mpr hmem).symm
  · rw [if_neg hmem, Bool.eq_false_iff.mpr (mt List.contains_iff_mem.mp hmem)]
    cases (s.chain t).last <;> rfl

theorem display_chain (s : Store) (t : Ty Name) :
    s.display (s.chain t).names.reverse (s.deref t) = s.renderType t := by
  rw [renderType, unfold_eq, ← display_eq above_nil, display_eq_visit [], visit_nil_eq_answer (by simp),
    answer_of_meets_none, deref]
  cases (s.chain t).last with
  | none => rw [Option.getD_none, display, writings]; rfl
  | some u => rfl

/-- References are followed to an end in every store. The loops with visited names end and find what the
store finds; what they find at the end of the chain, along it and below it fits together; and on the way
to any piece of a text no name is followed twice. -/
theorem references_followed (s : Store) (t : Ty Name) :
    (s.visit (fun _ => none) .untyped (fun _ u => u) [] t = s.deref t ∧
      s.visit (fun _ => none) none (fun visited _ => visited.head?) [] t = s.terminal? t ∧
      (∀ n : Name, n.id < s.size →
        s.visit (fun m => if m = n then some true else none) false (fun _ _ => false) [] t =
          s.refersTo t n) ∧
      s.display [] t = s.renderType t) ∧
    (∀ n, s.deref t ≠ .reference n) ∧
    (∀ n, s.terminal? t = some n →
      s.Passes t n ∧ s.isLive n ∧ (∀ m, s.type n ≠ .reference m) ∧ s.deref t = s.type n) ∧
    (s.terminal? t = none ↔ (∀ n, t ≠ .reference n) ∨ s.Dangles t ∨ s.LoopsFrom t) ∧
    (s.Dangles t ∨ s.LoopsFrom t → s.deref t = .untyped) ∧
    (∀ n : Name, n.id < s.size → (s.refersTo t n = true ↔ s.Passes t n)) ∧
    s.display (s.chain t).names.reverse (s.deref t) = s.renderType t ∧
    ∀ w ∈ s.writings [] t, w.followed.Nodup := by
  have hrefers : ∀ n : Name, n.id < s.size → (s.refersTo t n = true ↔ s.Passes t n) := by
    intro n hn
    rw [← visit_refersTo t hn]
    exact visit_refers_iff (by simp [LeadTo]) List.not_mem_nil
  refine ⟨⟨visit_deref s t, visit_terminal? s t, fun n hn => visit_refersTo t hn, ?_⟩,
    s.deref_ne_reference t, fun n hn => ?_, terminal?_eq_none_iff, deref_eq_untyped_of_breaks, hrefers,
    display_chain s t, fun w hw => nodup_followed List.nodup_nil hw⟩
  · rw [renderType, unfold_eq, display_eq above_nil]
  · obtain ⟨hlive, htype⟩ := type_of_terminal? hn
    obtain ⟨ns, u, h, hlast⟩ := terminal?_eq_some_iff.mp hn
    refine ⟨?_, hlive, ?_, htype.symm⟩
    · rw [← hrefers n (id_lt_of_isLive hlive), refersTo, h.chain_eq]
      exact List.contains_iff_mem.mpr (List.mem_of_getLast? hlast)
    · exact htype ▸ s.deref_ne_reference t

/-- Two names refer to each other, one is dropped, and the last one refers to a channel of it. -/
theorem references_followed_looping :
    let s : Store := ⟨#[some { Entry.ordinary "a" with type := .reference ⟨1⟩ },
      some { Entry.ordinary "b" with type := .reference ⟨0⟩ }, none,
      some { Entry.ordinary "d" with type := .chan (.reference ⟨2⟩) },
      some { Entry.ordinary "e" with type := .reference ⟨3⟩ }]⟩
    (s.Passes (.reference ⟨0⟩) ⟨1⟩ ∧ s.deref (.reference ⟨0⟩) = .untyped) ∧
      s.deref (.reference ⟨2⟩) = .untyped ∧
      s.Passes (.reference ⟨4⟩) ⟨3⟩ ∧ s.deref (.reference ⟨4⟩) = .chan (.reference ⟨2⟩) ∧
      s.display [] (.reference ⟨4⟩) = "chan interface\x7b\x7d" := by
  intro s
  have hthere : s.Forwards ⟨0⟩ ⟨1⟩ := by decide
  have hback : s.Forwards ⟨1⟩ ⟨0⟩ := by decide
  have hloops : s.LoopsFrom (.reference ⟨0⟩) := ⟨⟨0⟩, ⟨⟨0⟩, rfl, .refl⟩, .tail (.single hthere) hback⟩
  have hdangles : s.Dangles (.reference ⟨2⟩) := ⟨⟨2⟩, ⟨⟨2⟩, rfl, .refl⟩, rfl⟩
  obtain ⟨-, -, -, -, huntyped, hrefers, -⟩ := references_followed s (.reference ⟨0⟩)
  obtain ⟨-, -, -, -, hdropped, -⟩ := references_followed s (.reference ⟨2⟩)
  obtain ⟨⟨-, -, -, htext⟩, -, hterminal, -⟩ := references_followed s (.reference ⟨4⟩)
  obtain ⟨hpasses, -, -, hderef⟩ := hterminal ⟨3⟩ (by decide)
  refine ⟨⟨(hrefers ⟨1⟩ (by decide)).mp (by decide), huntyped (.inr hloops)⟩,
    hdropped (.inl hdangles), hpasses, hderef, ?_⟩
  rw [htext]
  decide +kernel

end results

end Store
end PiCalculus
