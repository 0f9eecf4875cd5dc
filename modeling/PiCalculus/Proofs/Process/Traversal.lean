import Mathlib
import PiCalculus.Proofs.Operation.Runs
import PiCalculus.Proofs.Process.Levels
import PiCalculus.Proofs.Process.Places

/-! Breadth-first order by a queue. In every round the first process that waits is listed and its
children line up behind all others, so the queue holds what is left of one generation and after it
the children of those that are gone. -/

namespace PiCalculus.Process

variable {ν : Type} {p q r : Process ν} {n : ν} {place place' : List Nat}

def nodeCount : Process ν → Nat
  | nil | send .. => 1
  | receive _ _ body | replicate body | restrict _ body => body.nodeCount + 1
  | par ps => (ps.map nodeCount).sum + 1
termination_by p => sizeOf p

theorem nodeCount_eq (p : Process ν) : p.nodeCount = (p.children.map nodeCount).sum + 1 := by
  cases p <;> simp [nodeCount, children]

theorem generations_nil (n : Nat) : generations n ([] : List (Process ν)) = [] := by
  induction n with
  | zero => rfl
  | succ n ih => rw [generations, List.flatMap_nil, ih, List.append_nil]

/-- What has been listed, and what waits to be listed. -/
structure Traversal (ν : Type) where
  listed : List (Process ν)
  queue : List (Process ν)

namespace Traversal

variable {t : Traversal ν} {order : List (Process ν)}

def start (p : Process ν) : Traversal ν := ⟨[], [p]⟩

/-- Lists the first process of the queue and appends its children to the queue, unless this is empty. -/
def next : Traversal ν → Traversal ν
  | ⟨listed, []⟩ => ⟨listed, []⟩
  | ⟨listed, p :: queue⟩ => ⟨listed ++ [p], queue ++ p.children⟩

/-- The number of nodes that are not listed yet. -/
def remaining (t : Traversal ν) : Nat := (t.queue.map nodeCount).sum

theorem remaining_start (p : Process ν) : (start p).remaining = p.nodeCount := List.sum_singleton

theorem queue_eq_nil_iff : t.queue = [] ↔ t.remaining = 0 := by
  rw [remaining]
  cases t.queue with
  | nil => simp
  | cons p queue => simp [nodeCount_eq p]

theorem remaining_next (t : Traversal ν) : t.next.remaining = t.remaining - 1 := by
  obtain ⟨listed, _ | ⟨p, queue⟩⟩ := t
  · rfl
  · simp only [next, remaining, List.map_append, List.sum_append, List.map_cons, List.sum_cons]
    have hp := p.nodeCount_eq
    omega

theorem length_listed_next (t : Traversal ν) :
    t.next.listed.length + t.next.remaining = t.listed.length + t.remaining := by
  obtain ⟨listed, _ | ⟨p, queue⟩⟩ := t
  · rfl
  · simp only [next, remaining, List.map_append, List.sum_append, List.map_cons, List.sum_cons,
      List.length_append, List.length_singleton]
    have hp := p.nodeCount_eq
    omega

/-- What is left of an order: some processes of one generation wait, behind them the children of those
of this generation that are listed, and after these comes all that is further down. -/
structure Midway (order level below : List (Process ν)) (depth : Nat) (t : Traversal ν) : Prop where
  queue_eq : t.queue = level ++ below
  height_le : ∀ q ∈ below ++ level.flatMap children, q.height ≤ depth
  order_eq : order = t.listed ++ (level ++ generations depth (below ++ level.flatMap children))

def GoesThrough (order : List (Process ν)) (t : Traversal ν) : Prop :=
  ∃ level below depth, Midway order level below depth t

theorem goesThrough_start (p : Process ν) : GoesThrough p.breadthFirst (start p) :=
  ⟨[], [p], p.height, rfl, by simp, rfl⟩

/-- Once a generation is at its end, the children that wait are the next one. -/
theorem Midway.turn {below : List (Process ν)} {depth : Nat} (h : Midway order [] below depth t)
    (hbelow : below ≠ []) : ∃ lower, Midway order below [] lower t := by
  obtain ⟨hqueue, hheight, horder⟩ := h
  rw [List.flatMap_nil, List.append_nil] at hheight horder
  obtain ⟨lower, rfl⟩ : ∃ lower, depth = lower + 1 := by
    obtain ⟨q, hq⟩ := List.exists_mem_of_ne_nil below hbelow
    have hpos := q.height_pos
    have hlow := hheight q hq
    exact ⟨depth - 1, by omega⟩
  refine ⟨lower, by simpa using hqueue, ?_, ?_⟩
  · rw [List.nil_append]
    exact height_children_le hheight
  · rw [horder, generations]
    rfl

/-- The first process of a generation goes, and its children come to the others that are next. -/
theorem Midway.next {level below : List (Process ν)} {depth : Nat}
    (h : Midway order (p :: level) below depth t) :
    Midway order level (below ++ p.children) depth t.next := by
  obtain ⟨hqueue, hheight, horder⟩ := h
  obtain ⟨listed, queue⟩ := t
  obtain rfl : queue = p :: (level ++ below) := hqueue
  refine ⟨?_, ?_, ?_⟩
  · simp [Traversal.next]
  · simpa using hheight
  · rw [horder]
    simp [Traversal.next]

theorem GoesThrough.next (h : GoesThrough order t) : GoesThrough order t.next := by
  obtain ⟨level, below, depth, h⟩ := h
  cases level with
  | cons p level => exact ⟨level, _, depth, h.next⟩
  | nil =>
    cases below with
    | cons p below =>
      obtain ⟨lower, hlower⟩ := h.turn (List.cons_ne_nil p below)
      exact ⟨below, _, lower, hlower.next⟩
    | nil =>
      have hself : t.next = t := by
        obtain ⟨listed, queue⟩ := t
        obtain rfl : queue = [] := h.queue_eq
        rfl
      rw [hself]
      exact ⟨[], [], depth, h⟩

theorem GoesThrough.isPrefix (h : GoesThrough order t) : t.listed <+: order := by
  obtain ⟨level, below, depth, h⟩ := h
  exact ⟨_, h.order_eq.symm⟩

theorem GoesThrough.listed_eq (h : GoesThrough order t) (ht : t.queue = []) : t.listed = order := by
  obtain ⟨level, below, depth, hqueue, -, horder⟩ := h
  obtain ⟨rfl, rfl⟩ := List.append_eq_nil_iff.mp (hqueue.symm.trans ht)
  simpa [generations_nil] using horder.symm

section run

variable (p : Process ν) (k : Nat)

theorem goesThrough_run : GoesThrough p.breadthFirst (next^[k] (start p)) := by
  induction k with
  | zero => exact goesThrough_start p
  | succ k ih =>
    rw [Function.iterate_succ_apply']
    exact ih.next

theorem remaining_run : (next^[k] (start p)).remaining = p.nodeCount - k := by
  induction k with
  | zero => exact remaining_start p
  | succ k ih => rw [Function.iterate_succ_apply', remaining_next, ih, Nat.sub_sub]

theorem length_listed_run :
    (next^[k] (start p)).listed.length + (p.nodeCount - k) = p.nodeCount := by
  rw [← remaining_run p k]
  induction k with
  | zero =>
    rw [Function.iterate_zero_apply, remaining_start]
    exact Nat.zero_add _
  | succ k ih => rw [Function.iterate_succ_apply', length_listed_next, ih]

theorem queue_run_eq_nil_iff : (next^[k] (start p)).queue = [] ↔ p.nodeCount ≤ k := by
  rw [queue_eq_nil_iff, remaining_run, Nat.sub_eq_zero_iff_le]

end run

theorem length_breadthFirst (p : Process ν) : p.breadthFirst.length = p.nodeCount := by
  have hend := (queue_run_eq_nil_iff p p.nodeCount).mpr (Nat.le_refl _)
  have hlength := length_listed_run p p.nodeCount
  rwa [(goesThrough_run p p.nodeCount).listed_eq hend, Nat.sub_self, Nat.add_zero] at hlength

theorem listed_run (p : Process ν) (k : Nat) :
    (next^[k] (start p)).listed = p.breadthFirst.take k := by
  have hlength := length_listed_run p k
  have hall := length_breadthFirst p
  rw [List.prefix_iff_eq_take.mp (goesThrough_run p k).isPrefix, List.take_eq_take_iff]
  omega

end Traversal

theorem not_shortlex_append (place rest : List Nat) :
    ¬ List.Shortlex (· < ·) (place ++ rest) place := fun h =>
  have hself := h.append_right rest
  List.Shortlex.asymm.asymm _ _ hself hself

theorem mem_behind {before after : List (List Nat × Process ν)}
    (h : p.nodes = before ++ (place, q) :: after) {rest : List Nat} (hrest : rest ≠ [])
    (hat : p.at? (place ++ rest) = some r) : (place ++ rest, r) ∈ after := by
  have hsorted := p.pairwise_nodes
  have hmem := mem_nodes.mpr hat
  rw [h] at hsorted hmem
  rcases List.mem_append.mp hmem with hbefore | hmem
  · have hfirst := (List.pairwise_append.mp hsorted).2.2 _ hbefore _ List.mem_cons_self
    exact absurd hfirst (not_shortlex_append place rest)
  · refine (List.mem_cons.mp hmem).resolve_left fun heq => hrest ?_
    exact List.append_right_eq_self.mp (Prod.mk.inj heq).1

/-- Putting something at a place changes nothing at the root of what stands elsewhere. -/
theorem exists_at?_replaceAt (new : Process ν) (hat : p.at? place = some q)
    (hat' : p.at? place' = some r) (apart : ¬ place <+: place') :
    ∃ r', (p.replaceAt place new).at? place' = some r' ∧ r'.rootNames = r.rootNames := by
  induction place generalizing p place' with
  | nil => exact absurd List.nil_prefix apart
  | cons i place ih =>
    obtain ⟨child, hchild, hplace⟩ := Option.bind_eq_some_iff.mp hat
    cases place' with
    | nil =>
      obtain rfl : p = r := Option.some.inj hat'
      exact ⟨_, rfl, gathers_occurrences.root p i place new⟩
    | cons j place' =>
      obtain ⟨child', hchild', hplace'⟩ := Option.bind_eq_some_iff.mp hat'
      rw [at?, children_replaceAt hchild]
      by_cases hij : i = j
      · subst hij
        obtain rfl := Option.some.inj (hchild.symm.trans hchild')
        have hbelow : ¬ place <+: place' := fun h => apart (List.cons_prefix_cons.mpr ⟨rfl, h⟩)
        obtain ⟨hi, -⟩ := List.getElem?_eq_some_iff.mp hchild
        rw [List.getElem?_set_self hi]
        exact ih hplace hplace' hbelow
      · rw [List.getElem?_set_ne hij, hchild']
        exact ⟨r, hplace', rfl⟩

/-- Where names are introduced once and used only inside, an introduced name stands at the node that
introduces it and below. -/
theorem Orderly.isPrefix (h : p.Orderly) (hat : p.at? place = some q) (hq : n ∈ q.rootBinders)
    (hat' : p.at? place' = some r) (hr : n ∈ r.rootNames) : place <+: place' := by
  by_contra apart
  have hown : n ∈ q.binders := (gathers_binders.perm q).symm.subset (List.mem_append_left _ hq)
  have hintroduced : n ∈ p.binders := gathers_binders.subset_of_at? hat hown
  have houtside := h.contained.notMem_outside (by simpa using h.nodup) hat hown hintroduced
  -- Without what stands at `place` the name would still be there, so it stands outside as well.
  obtain ⟨r', hr', hnames⟩ := exists_at?_replaceAt nil hat hat' apart
  exact houtside (exists_at?_rootNames.mp ⟨place', r', hr', hnames ▸ hr⟩)

/-- No name is met before the node that introduces it. -/
theorem Orderly.notMem_before (h : p.Orderly) {before after : List (Process ν)}
    (hsplit : p.breadthFirst = before ++ q :: after) (hq : n ∈ q.rootBinders) :
    ∀ r ∈ before, n ∉ r.rootNames := by
  rw [← map_snd_nodes, List.map_eq_append_iff] at hsplit
  obtain ⟨first, others, hnodes, rfl, hothers⟩ := hsplit
  obtain ⟨⟨place, q'⟩, later, rfl, rfl, rfl⟩ := List.map_eq_cons_iff.mp hothers
  rintro r hr hn
  obtain ⟨⟨place', r'⟩, hmem, rfl⟩ := List.mem_map.mp hr
  have hall : ∀ a ∈ first ++ (place, q') :: later, p.at? a.1 = some a.2 :=
    fun a ha => mem_nodes.mp (hnodes ▸ ha)
  obtain ⟨hfirst, hothers⟩ := List.forall_mem_append.mp hall
  obtain ⟨rest, rfl⟩ := h.isPrefix (List.forall_mem_cons.mp hothers).1 hq (hfirst _ hmem) hn
  have hsorted := p.pairwise_nodes
  rw [hnodes] at hsorted
  have hbefore := (List.pairwise_append.mp hsorted).2.2 _ hmem _ List.mem_cons_self
  exact not_shortlex_append place rest hbefore

/-- The queue is empty after as many rounds as there are nodes, and not before. By then each node has
been listed once, the less deep ones first and those of one depth from left to right, so that what
stands inside a node comes behind it. Where names are used only inside the nodes that introduce them,
whatever goes through the nodes in this order meets a name first where it is introduced. -/
theorem breadthFirst_traverses (p : Process ν) :
    (∀ k, (Traversal.next^[k] (.start p)).listed = p.breadthFirst.take k ∧
      ((Traversal.next^[k] (.start p)).queue = [] ↔ p.nodeCount ≤ k)) ∧
    p.breadthFirst.length = p.nodeCount ∧
    p.nodes.map Prod.snd = p.breadthFirst ∧
    (∀ place q, (place, q) ∈ p.nodes ↔ p.at? place = some q) ∧
    p.nodes.Pairwise (fun a b => List.Shortlex (· < ·) a.1 b.1) ∧
    (∀ before place q after, p.nodes = before ++ (place, q) :: after → ∀ rest r, rest ≠ [] →
      p.at? (place ++ rest) = some r → (place ++ rest, r) ∈ after) ∧
    (p.Orderly → ∀ before q after, p.breadthFirst = before ++ q :: after → ∀ n ∈ q.rootBinders,
      ∀ r ∈ before, n ∉ r.rootNames) := by
  refine ⟨fun k => ⟨Traversal.listed_run p k, Traversal.queue_run_eq_nil_iff p k⟩,
    Traversal.length_breadthFirst p, map_snd_nodes p, fun place q => mem_nodes, pairwise_nodes p,
    fun before place q after h rest r hrest hat => mem_behind h hrest hat,
    fun h before q after hsplit n hn => h.notMem_before hsplit hn⟩

/-- A name is sent on the left less deep than it is restricted on the right, where it is another one. -/
theorem breadthFirst_traverses_bound :
    ∃ p, Program.parse "((new a)(a<b> | a(b,x).!x<b>) | c<a,b> | (new b)(b<x> | 0))" = .ok p ∧
      let bound := p.process.bind p.store.label
      (bound.Orderly ∧ bound.breadthFirst.length = 13) ∧
      ∀ before q after, bound.breadthFirst = before ++ q :: after → ∀ n ∈ q.rootBinders,
        ∀ r ∈ before, n ∉ r.rootNames := by
  obtain ⟨p, parsed, hcount⟩ : ∃ p,
      Program.parse "((new a)(a<b> | a(b,x).!x<b>) | c<a,b> | (new b)(b<x> | 0))" = .ok p ∧
      (p.process.bind p.store.label).nodeCount = 13 := by
    decide +kernel
  have horderly := (Orderly.of_parse parsed).bind p.store.label
  obtain ⟨-, hlength, -, -, -, -, hfirst⟩ := breadthFirst_traverses (p.process.bind p.store.label)
  exact ⟨p, parsed, ⟨horderly, hlength.trans hcount⟩, hfirst horderly⟩

end PiCalculus.Process
