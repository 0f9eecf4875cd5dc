import Mathlib
import PiCalculus.Operation

/-! Code under a limit. Before any text is made it is found out whether each type in it may fit, as types
can stand for trees that are too large to be written. What comes out is the same as if the code was
written first and measured then. -/

namespace PiCalculus

section texts

variable {text : String} {texts : List String}

theorem utf8ByteSize_le_join (h : text ∈ texts) :
    text.utf8ByteSize ≤ (String.join texts).utf8ByteSize := by
  induction texts with
  | nil => cases h
  | cons first rest ih =>
    rw [String.join_cons, String.utf8ByteSize_append]
    rcases List.mem_cons.mp h with rfl | h
    · exact Nat.le_add_right _ _
    · exact (ih h).trans (Nat.le_add_left _ _)

theorem utf8ByteSize_le_intercalate (between : String) (h : text ∈ texts) :
    text.utf8ByteSize ≤ (between.intercalate texts).utf8ByteSize := by
  induction texts with
  | nil => cases h
  | cons first rest ih =>
    have hparts := utf8ByteSize_intercalate_cons between first rest
    rcases List.mem_cons.mp h with rfl | h
    · exact (Nat.le_add_right _ _).trans hparts
    · exact (ih h).trans ((Nat.le_add_left _ _).trans hparts)

end texts

namespace Code

variable {τ : Type} {typeText : τ → String} {type : τ}

theorem utf8ByteSize_le_sendAllText (chan : String) {values : List (String × τ)}
    (h : type ∈ values.map (·.2)) :
    (typeText type).utf8ByteSize ≤ (sendAllText typeText chan values).utf8ByteSize := by
  obtain ⟨value, hvalue, rfl⟩ := List.mem_map.mp h
  obtain ⟨i, hi⟩ := List.getElem?_of_mem hvalue
  have hfield : "e" ++ toString i ++ " " ++ typeText value.2 ∈
      values.mapIdx fun i value => "e" ++ toString i ++ " " ++ typeText value.2 := by
    apply List.mem_of_getElem? (i := i)
    rw [List.getElem?_mapIdx, hi]
    rfl
  have hfields := utf8ByteSize_le_intercalate ";" hfield
  rw [String.utf8ByteSize_append] at hfields
  rw [sendAllText]
  simp only [String.utf8ByteSize_append]
  omega

/-- The step from statements to a block of them. -/
theorem utf8ByteSize_le_render_of_forall {block : List (Statement τ)}
    (hblock : ∀ st ∈ block, type ∈ st.types →
      (typeText type).utf8ByteSize ≤ (st.render typeText).utf8ByteSize)
    (h : type ∈ block.flatMap Statement.types) :
    (typeText type).utf8ByteSize ≤ (render typeText block).utf8ByteSize := by
  obtain ⟨st, hst, htype⟩ := List.mem_flatMap.mp h
  exact (hblock st hst htype).trans (utf8ByteSize_le_join (List.mem_map_of_mem hst))

/-- A statement is no shorter than any type that it writes. -/
theorem Statement.utf8ByteSize_le_render {st : Statement τ} (h : type ∈ st.types) :
    (typeText type).utf8ByteSize ≤ (st.render typeText).utf8ByteSize := by
  fun_induction types st with
  | case1 name other =>
    obtain rfl := List.mem_singleton.mp h
    rw [render]
    simp only [String.utf8ByteSize_append]
    omega
  | case2 name other =>
    obtain rfl := List.mem_singleton.mp h
    rw [render]
    simp only [String.utf8ByteSize_append]
    omega
  | case3 chan values =>
    rw [render]
    exact utf8ByteSize_le_sendAllText chan h
  | case4 => cases h
  | case5 => cases h
  | case6 => cases h
  | case7 body ih =>
    have hbody := utf8ByteSize_le_render_of_forall ih h
    rw [Code.render] at hbody
    rw [render]
    simp only [String.utf8ByteSize_append]
    omega
  | case8 body ih =>
    have hbody := utf8ByteSize_le_render_of_forall ih h
    rw [Code.render] at hbody
    rw [render]
    simp only [String.utf8ByteSize_append]
    omega

theorem utf8ByteSize_le_wrap (options : Option Options) (calculi code : String) :
    code.utf8ByteSize ≤ (wrap options calculi code).utf8ByteSize := by
  cases options with
  | none => exact Nat.le_refl _
  | some options =>
    rw [wrap]
    simp only [String.utf8ByteSize_append]
    omega

end Code

namespace Operation

theorem mayFit_of_le {options : Option Code.Options} {calculi : String} {s : Store}
    {block : List (Code.Statement (Ty Name))} {most : Nat}
    (h : (Code.wrap options calculi (Code.render s.renderType block)).utf8ByteSize ≤ most) :
    mayFit s (block.flatMap Code.Statement.types) most := by
  refine List.all_eq_true.mpr fun type htype => s.isWithin_of_renderType _ type ?_
  have htext : (s.renderType type).utf8ByteSize ≤ (Code.render s.renderType block).utf8ByteSize :=
    Code.utf8ByteSize_le_render_of_forall (fun _ _ => Code.Statement.utf8ByteSize_le_render) htype
  have hcode := Code.utf8ByteSize_le_wrap options calculi (Code.render s.renderType block)
  omega

/-- The whole code is measured, and whether there is room for the types does not count. -/
theorem run_generate (options : Option Code.Options) (limit : Option Nat) (held : List Name)
    (s : Store) (p : Process Name) :
    let checked := typecheck held s p
    let code := Code.wrap options (s.calculi p)
      (Code.render checked.store.renderType (checked.store.block checked.process))
    (generate options limit).run held s p = { checked with
      result := checked.result.bind fun _ =>
        if ∀ most ∈ limit, code.utf8ByteSize ≤ most then .ok (.text code) else .error .format } := by
  intro checked code
  let types := (checked.store.block checked.process).flatMap Code.Statement.types
  have hfit : fit limit (mayFit checked.store types) (fun _ => code) =
      if ∀ most ∈ limit, code.utf8ByteSize ≤ most then .ok code else .error .format :=
    fit_eq limit _ _ fun _ => mayFit_of_le
  have hrun : (generate options limit).run held s p = { checked with
      result := checked.result.bind fun _ =>
        (fit limit (mayFit checked.store types) fun _ => code).bind fun text => .ok (.text text) } := rfl
  rw [hrun, hfit]
  congr 2
  funext
  split <;> rfl

/-- With a limit the code is the same as without one if it is no longer than the limit, and there is
none if it is. All else is the same. -/
theorem run_generate_limit (options : Option Code.Options) (most : Nat) (held : List Name) (s : Store)
    (p : Process Name) :
    let free := (generate options none).run held s p
    (generate options (some most)).run held s p = { free with
      result := free.result.bind fun
        | .text code => if code.utf8ByteSize ≤ most then .ok (.text code) else .error .format
        | value => .ok value } := by
  intro free
  have hfree : free = _ := run_generate options none held s p
  rw [run_generate, hfree]
  cases (typecheck held s p).result <;> simp [Except.bind]

end Operation

end PiCalculus
