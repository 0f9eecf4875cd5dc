import Mathlib
import PiCalculus.Proofs.Process.Context

/-! The descent to the composition in which a process communicates, and which nodes of a process are
left alone when something is put at the end of a way down. -/

namespace PiCalculus.Process

variable {ν : Type} {way : List Nat} {p q : Process ν}

/-- A node with its names and the number of its children, but with nothing of the children. -/
def bare : Process ν → Process ν
  | nil => nil
  | send chan values => send chan values
  | receive chan vars _ => receive chan vars nil
  | par ps => par (ps.map fun _ => nil)
  | replicate _ => replicate nil
  | restrict name _ => restrict name nil

theorem rootNames_bare (p : Process ν) : p.bare.rootNames = p.rootNames := by
  cases p <;> rfl

theorem at?_append (p : Process ν) (way more : List Nat) :
    p.at? (way ++ more) = (p.at? way).bind (·.at? more) := by
  induction way generalizing p with
  | nil => rfl
  | cons i way ih =>
    rw [List.cons_append, at?, at?, Option.bind_assoc]
    congr 1
    funext q
    exact ih q

/-- Processes with the same nodes at all places are the same. -/
theorem eq_of_bare_at? {p q : Process ν}
    (h : ∀ place, (p.at? place).map bare = (q.at? place).map bare) : p = q := by
  -- The node at the root tells the constructor and the names, and every place below a child is one
  -- below the root.
  induction p generalizing q with
  | nil =>
    have hroot := Option.some.inj (h [])
    cases q <;> simp_all [bare]
  | send chan values =>
    have hroot := Option.some.inj (h [])
    cases q <;> simp_all [bare]
  | receive chan vars body ih =>
    have hroot := Option.some.inj (h [])
    cases q with
    | receive chan' vars' body' =>
      have hbody : body = body' := ih fun place => h (0 :: place)
      simp only [bare, receive.injEq, and_true] at hroot
      rw [hroot.1, hroot.2, hbody]
    | _ => simp [bare] at hroot
  | par ps ih =>
    have hroot := Option.some.inj (h [])
    cases q with
    | par qs =>
      simp only [bare, par.injEq] at hroot
      have hlength : ps.length = qs.length := by simpa using congrArg List.length hroot
      rw [par.injEq]
      refine List.ext_getElem hlength fun k hk hk' => ih ps[k] (List.getElem_mem hk) fun place => ?_
      have hplace := h (k :: place)
      rw [at?, at?, children, children, List.getElem?_eq_getElem hk,
        List.getElem?_eq_getElem hk'] at hplace
      exact hplace
    | _ => simp [bare] at hroot
  | replicate body ih =>
    have hroot := Option.some.inj (h [])
    cases q with
    | replicate body' =>
      have hbody : body = body' := ih fun place => h (0 :: place)
      rw [hbody]
    | _ => simp [bare] at hroot
  | restrict name body ih =>
    have hroot := Option.some.inj (h [])
    cases q with
    | restrict name' body' =>
      have hbody : body = body' := ih fun place => h (0 :: place)
      simp only [bare, restrict.injEq, and_true] at hroot
      rw [hroot, hbody]
    | _ => simp [bare] at hroot

theorem Leads.at?_replaceAt (h : Leads way p q) (new : Process ν) :
    (p.replaceAt way new).at? way = some new := by
  induction h with
  | here p => rfl
  | component as l bs ih =>
    rw [replaceAt_component, at?, children]
    simpa using ih
  | replicate l ih => exact ih
  | restrict l ih => exact ih

/-- Every node that is not at the end of the way or below it stays as it is. -/
theorem Leads.bare_at?_replaceAt (h : Leads way p q) (new : Process ν) {place : List Nat}
    (outside : ¬ way <+: place) :
    ((p.replaceAt way new).at? place).map bare = (p.at? place).map bare := by
  induction h generalizing place with
  | here p => exact (outside place.nil_prefix).elim
  | @component as way p q l bs ih =>
    rw [replaceAt_component]
    cases place with
    | nil => simp [at?, bare]
    | cons k place =>
      rw [at?, at?, children, children]
      -- The place goes on along the way or turns off to a sibling, which is what it was.
      by_cases hk : k = as.length
      · have hinside : ¬ way <+: place := fun hprefix =>
          outside (hk ▸ List.cons_prefix_cons.mpr ⟨rfl, hprefix⟩)
        simpa [hk] using ih hinside
      · have hother : (as ++ p.replaceAt way new :: bs)[k]? = (as ++ p :: bs)[k]? := by
          simp only [List.getElem?_append, List.getElem?_cons]
          split
          · rfl
          · rw [if_neg (by omega), if_neg (by omega)]
        rw [hother]
  | @replicate way p q l ih =>
    cases place with
    | nil => rfl
    | cons k place =>
      cases k with
      | zero => exact ih fun hprefix => outside (List.cons_prefix_cons.mpr ⟨rfl, hprefix⟩)
      | succ k => rfl
  | @restrict way n p q l ih =>
    cases place with
    | nil => rfl
    | cons k place =>
      cases k with
      | zero => exact ih fun hprefix => outside (List.cons_prefix_cons.mpr ⟨rfl, hprefix⟩)
      | succ k => rfl

/-- The descent from the root: into what is restricted or replicated and, from a composition, into the
first one directly inside it. It ends where it cannot go on. -/
inductive Descends : List Nat → Process ν → Process ν → Prop
  | nil : Descends [] nil nil
  | send (chan : ν) (values : List ν) : Descends [] (send chan values) (send chan values)
  | receive (chan : ν) (vars : List ν) (body : Process ν) :
      Descends [] (receive chan vars body) (receive chan vars body)
  | flat {ps : List (Process ν)} (none : ∀ qs, par qs ∉ ps) : Descends [] (par ps) (par ps)
  | nested {ps qs : List (Process ν)} {i : Nat} {way : List Nat} {q : Process ν}
      (child : ps[i]? = some (par qs)) (first : ∀ k rs, ps[k]? = some (par rs) → i ≤ k)
      (d : Descends way (par qs) q) : Descends (i :: way) (par ps) q
  | replicate {way : List Nat} {p q : Process ν} (d : Descends way p q) :
      Descends (0 :: way) (replicate p) q
  | restrict {way : List Nat} {n : ν} {p q : Process ν} (d : Descends way p q) :
      Descends (0 :: way) (restrict n p) q

theorem exists_descends (p : Process ν) : ∃ way q, Descends way p q := by
  classical
  induction p with
  | nil => exact ⟨[], _, .nil⟩
  | send chan values => exact ⟨[], _, .send chan values⟩
  | receive chan vars body => exact ⟨[], _, .receive chan vars body⟩
  | par ps ih =>
    -- Of the compositions directly inside the descent takes the first one.
    by_cases hchild : ∃ (i : Nat) (qs : List (Process ν)), ps[i]? = some (par qs)
    · obtain ⟨qs, hqs⟩ := Nat.find_spec hchild
      obtain ⟨way, q, hd⟩ := ih (par qs) (List.mem_of_getElem? hqs)
      exact ⟨_ :: way, q, .nested hqs (fun k rs hk => Nat.find_min' hchild ⟨rs, hk⟩) hd⟩
    · refine ⟨[], _, .flat fun qs hqs => hchild ?_⟩
      obtain ⟨i, hi⟩ := List.mem_iff_getElem?.mp hqs
      exact ⟨i, qs, hi⟩
  | replicate body ih =>
    obtain ⟨way, q, hd⟩ := ih
    exact ⟨0 :: way, q, .replicate hd⟩
  | restrict name body ih =>
    obtain ⟨way, q, hd⟩ := ih
    exact ⟨0 :: way, q, .restrict hd⟩

/-- A search through numbered elements ends at the first at which it finds something. -/
theorem findSome?_zipIdx_eq {α β : Type} {f : α × Nat → Option β} {l : List α} {i : Nat} {a : α}
    {b : β} (hi : l[i]? = some a) (hf : f (a, i) = some b)
    (before : ∀ k < i, ∀ c, l[k]? = some c → f (c, k) = none) : l.zipIdx.findSome? f = some b := by
  obtain ⟨as, bs, rfl, rfl⟩ := split_of_getElem? hi
  have hnone : as.zipIdx.findSome? f = none := by
    rw [List.findSome?_eq_none_iff]
    rintro ⟨c, k⟩ hc
    have hget := List.mk_mem_zipIdx_iff_getElem?.mp hc
    obtain ⟨hk, -⟩ := List.getElem?_eq_some_iff.mp hget
    exact before k hk c (by rw [List.getElem?_append_left hk, hget])
  rw [List.zipIdx_append, List.findSome?_append, hnone, Option.none_or, List.zipIdx_cons,
    List.findSome?_cons, Nat.zero_add, hf]

namespace Descends

theorem leads (h : Descends way p q) : Leads way p q := by
  induction h with
  | nested child first d ih => exact .of_getElem? child ih
  | replicate d ih => exact .replicate ih
  | restrict d ih => exact .restrict ih
  | _ => exact .here _

theorem isPar {ps : List (Process ν)} (h : Descends way (par ps) q) : q.isPar := by
  generalize hp : par ps = p at h
  induction h generalizing ps with
  | flat => rfl
  | nested child first d ih => exact ih rfl
  | _ => cases hp

/-- The way to the composition that is looked at for a communication is that of the descent. -/
theorem focus?_eq (h : Descends way p q) : p.focus? = if q.isPar then some way else none := by
  induction h with
  | nil => rw [focus?]; rfl
  | send chan values => rw [focus?]; rfl
  | receive chan vars body => rw [focus?]; rfl
  | @flat ps hnone =>
    rw [focus?, List.findSome?_eq_none_iff.mpr]
    · rfl
    · rintro ⟨path?, i⟩ hmem
      have hget := List.mk_mem_zipIdx_iff_getElem?.mp hmem
      rw [List.getElem?_map] at hget
      obtain ⟨p, hp, rfl⟩ := Option.map_eq_some_iff.mp hget
      cases p with
      | par qs => exact (hnone qs (List.mem_of_getElem? hp)).elim
      | _ => rfl
  | @nested ps qs i way q child first d ih =>
    -- The search meets the composition that the descent goes into, and none before it.
    have hfound : (ps.map fun p => if p.isPar then p.focus? else none)[i]? = some (some way) := by
      rw [List.getElem?_map, child, Option.map_some, ih, if_pos d.isPar]
      rfl
    rw [focus?, if_pos d.isPar, findSome?_zipIdx_eq (b := i :: way) hfound]
    · rfl
    · rfl
    · intro k hk path? hget
      rw [List.getElem?_map] at hget
      obtain ⟨p, hp, rfl⟩ := Option.map_eq_some_iff.mp hget
      cases p with
      | par rs => exact (Nat.not_le.mpr hk (first k rs hp)).elim
      | _ => rfl
  | replicate d ih =>
    rw [focus?, ih]
    split <;> rfl
  | restrict d ih =>
    rw [focus?, ih]
    split <;> rfl

end Descends

/-- Two children of the node at the end of a way have communicated: nothing is left of the one and of
the other its continuation, and all other nodes are as before. -/
structure Communicated (way : List Nat) (i j : Nat) (body before after : Process ν) : Prop where
  sender : after.at? (way ++ [i]) = some nil
  receiver : after.at? (way ++ [j]) = some body
  elsewhere : ∀ place, ¬ way ++ [i] <+: place → ¬ way ++ [j] <+: place →
    (after.at? place).map bare = (before.at? place).map bare

theorem Communicated.unique {i j : Nat} {body before after after' : Process ν}
    (h : Communicated way i j body before after) (h' : Communicated way i j body before after') :
    after = after' := by
  apply eq_of_bare_at?
  intro place
  by_cases hi : way ++ [i] <+: place
  · obtain ⟨rest, rfl⟩ := hi
    rw [at?_append _ _ rest, at?_append _ _ rest, h.sender, h'.sender]
  · by_cases hj : way ++ [j] <+: place
    · obtain ⟨rest, rfl⟩ := hj
      rw [at?_append _ _ rest, at?_append _ _ rest, h.receiver, h'.receiver]
    · rw [h.elsewhere place hi hj, h'.elsewhere place hi hj]

theorem Leads.communicated {ps : List (Process ν)} {i j : Nat} (h : Leads way p (par ps))
    (hi : i < ps.length) (hj : j < ps.length) (hne : i ≠ j) (body : Process ν) :
    Communicated way i j body p (p.replaceAt way (par ((ps.set i nil).set j body))) := by
  have hat := h.at?_replaceAt (par ((ps.set i nil).set j body))
  refine ⟨?_, ?_, fun place houti houtj => ?_⟩
  · rw [at?_append, hat]
    simp [at?, children, hi, hne.symm]
  · rw [at?_append, hat]
    simp [at?, children, hj]
  · by_cases hway : way <+: place
    · obtain ⟨rest, rfl⟩ := hway
      rw [at?_append, at?_append, hat, h.at?_eq]
      cases rest with
      | nil =>
        have hbare : (par ((ps.set i nil).set j body)).bare = (par ps).bare := by
          rw [bare, bare, par.injEq]
          exact List.ext_getElem (by simp) fun k _ _ => by simp
        exact congrArg some hbare
      | cons k rest =>
        have hki : i ≠ k := fun heq => houti ⟨rest, by simp [heq]⟩
        have hkj : j ≠ k := fun heq => houtj ⟨rest, by simp [heq]⟩
        rw [Option.bind_some, Option.bind_some, at?, at?, children, children,
          List.getElem?_set_ne hkj, List.getElem?_set_ne hki]
    · exact h.bare_at?_replaceAt _ hway

end PiCalculus.Process
