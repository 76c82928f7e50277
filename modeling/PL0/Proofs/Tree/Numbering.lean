import Mathlib.Data.List.Nodup
import Mathlib.Data.Nat.Find
import Mathlib.Logic.Relation
import PL0.Proofs.Tree.Printing

/-!
# `Tree.Numbering` — pre-order numbers

`Diagram.entries` hands a number to each node of a diagram. Three facts about a run of entries carry
the development, each by induction on the diagram: the numbers follow each other
(`map_id_entries`), a parent has a smaller number than its child (`parent_entries`), and edges do
not cross (`parent_le_entries`): where `f` is numbered behind `e` and its parent before `e`, the
parent of `e` is not numbered before that of `f`.

A `Drawing` is what the text of a diagram shows, labels and edges. From the three facts follows what
pre-order means for it (`Drawing.PreOrdered`): a node is below another exactly if no edge leads from
before the latter to it or to what lies between (`Drawing.Rising.below_iff`), so what is below a
node has the numbers right behind it. That the drawing shows the diagram is
`Diagram.shownAt_drawing`.
-/

namespace PL0

/-! ## The size of a diagram -/

namespace Diagram

mutual

/-- The number of nodes. -/
def size : Diagram → Nat
  | node _ ds => sizes ds + 1

def sizes : List Diagram → Nat
  | [] => 0
  | d :: ds => d.size + sizes ds

end

mutual

theorem length_entries (parent : Option Nat) (i : Nat) (d : Diagram) :
    (d.entries parent i).length = d.size := by
  cases d with
  | node label ds => rw [entries, List.length_cons, length_entriesOf, size]

theorem length_entriesOf (p i : Nat) (ds : List Diagram) :
    (entriesOf p i ds).length = sizes ds := by
  cases ds with
  | nil => rfl
  | cons d ds => simp only [entriesOf, List.length_append, length_entries, length_entriesOf, sizes]

end

theorem entriesOf_cons (p i : Nat) (d : Diagram) (ds : List Diagram) :
    entriesOf p i (d :: ds) = d.entries (some p) i ++ entriesOf p (i + d.size) ds := by
  rw [entriesOf, length_entries]

/-! ## Numbers and parents -/

variable {e f : Entry}

mutual

/-- **The nodes are numbered one after the other.** -/
theorem map_id_entries (parent : Option Nat) (i : Nat) (d : Diagram) :
    (d.entries parent i).map Entry.id = List.range' i d.size := by
  cases d with
  | node label ds => rw [entries, List.map_cons, map_id_entriesOf, size, List.range'_succ]

theorem map_id_entriesOf (p i : Nat) (ds : List Diagram) :
    (entriesOf p i ds).map Entry.id = List.range' i (sizes ds) := by
  cases ds with
  | nil => rfl
  | cons d ds =>
    rw [entriesOf_cons, List.map_append, map_id_entries, map_id_entriesOf, sizes,
      List.range'_append_1]

end

theorem id_of_mem_entries {parent : Option Nat} {i : Nat} {d : Diagram}
    (h : e ∈ d.entries parent i) : i ≤ e.id ∧ e.id < i + d.size := by
  have hmem : e.id ∈ (d.entries parent i).map Entry.id := List.mem_map_of_mem h
  rw [map_id_entries] at hmem
  exact List.mem_range'_1.1 hmem

theorem id_of_mem_entriesOf {p i : Nat} {ds : List Diagram} (h : e ∈ entriesOf p i ds) :
    i ≤ e.id ∧ e.id < i + sizes ds := by
  have hmem : e.id ∈ (entriesOf p i ds).map Entry.id := List.mem_map_of_mem h
  rw [map_id_entriesOf] at hmem
  exact List.mem_range'_1.1 hmem

mutual

/-- The parent of a node is `p` or one of the nodes, with a smaller number than the node. -/
theorem parent_entries {p i : Nat} {d : Diagram} (hp : p < i) (h : e ∈ d.entries (some p) i) :
    ∃ q, e.parent = some q ∧ (q = p ∨ i ≤ q) ∧ q < e.id := by
  cases d with
  | node label ds =>
    rcases List.mem_cons.1 h with rfl | h
    · exact ⟨p, rfl, .inl rfl, hp⟩
    · obtain ⟨q, hq, hge, hlt⟩ := parent_entriesOf (Nat.lt_succ_self i) h
      exact ⟨q, hq, .inr (by omega), hlt⟩

theorem parent_entriesOf {p i : Nat} {ds : List Diagram} (hp : p < i)
    (h : e ∈ entriesOf p i ds) :
    ∃ q, e.parent = some q ∧ (q = p ∨ i ≤ q) ∧ q < e.id := by
  cases ds with
  | nil => cases h
  | cons d ds =>
    rw [entriesOf_cons] at h
    rcases List.mem_append.1 h with h | h
    · exact parent_entries hp h
    · obtain ⟨q, hq, hge, hlt⟩ := parent_entriesOf (by omega) h
      exact ⟨q, hq, by omega, hlt⟩

end

mutual

/-- **Edges do not cross:** where the parent of `f` comes before `e`, and `e` before `f`, the parent
    of `e` does not come before that of `f`. -/
theorem parent_le_entries {p q r i : Nat} {d : Diagram}
    (he : e ∈ d.entries (some p) i) (hf : f ∈ d.entries (some p) i) (hq : e.parent = some q)
    (hr : f.parent = some r) (hef : e.id < f.id) (hre : r < e.id) : r ≤ q := by
  cases d with
  | node label ds =>
    rcases List.mem_cons.1 hf with rfl | hf
    · have hfirst := (id_of_mem_entries he).1
      exact absurd hef (by simpa using hfirst)
    · rcases List.mem_cons.1 he with rfl | he
      · -- The first node comes before the parents of all others.
        obtain ⟨r', hr', hge, -⟩ := parent_entriesOf (Nat.lt_succ_self i) hf
        obtain rfl : r = r' := Option.some.inj (hr.symm.trans hr')
        have hlt : r < i := hre
        omega
      · exact parent_le_entriesOf (Nat.lt_succ_self i) he hf hq hr hef hre

theorem parent_le_entriesOf {p q r i : Nat} {ds : List Diagram} (hp : p < i)
    (he : e ∈ entriesOf p i ds) (hf : f ∈ entriesOf p i ds) (hq : e.parent = some q)
    (hr : f.parent = some r) (hef : e.id < f.id) (hre : r < e.id) : r ≤ q := by
  cases ds with
  | nil => cases he
  | cons d ds =>
    have hp' : p < i + d.size := by omega
    rw [entriesOf_cons] at he hf
    rcases List.mem_append.1 he with he | he
    · rcases List.mem_append.1 hf with hf | hf
      · exact parent_le_entries he hf hq hr hef hre
      · -- Two nodes below different children: the parent of the later one is `p` or comes too late.
        obtain ⟨q', hq', hqp, -⟩ := parent_entries hp he
        obtain ⟨r', hr', hrp, -⟩ := parent_entriesOf hp' hf
        obtain rfl : q = q' := Option.some.inj (hq.symm.trans hq')
        obtain rfl : r = r' := Option.some.inj (hr.symm.trans hr')
        have hlast := (id_of_mem_entries he).2
        omega
    · rcases List.mem_append.1 hf with hf | hf
      · have hfirst := (id_of_mem_entriesOf he).1
        have hlast := (id_of_mem_entries hf).2
        omega
      · exact parent_le_entriesOf hp' he hf hq hr hef hre

end

end Diagram

/-! ## Drawings -/

/-- What a Graphviz text shows: node `i` has the label that is `i`-th, and an edge leads from a node
    to another. -/
structure Drawing where
  labels : List String
  edges : List (Nat × Nat)

namespace Drawing

/-- The line that introduces a node. -/
def nodeLine (id : Nat) (label : String) : String := s!"{id} [label=\"{Diagram.escape label}\"];\n"

/-- The line of an edge. -/
def edgeLine (e : Nat × Nat) : String := s!"{e.1}->{e.2};\n"

/-- The Graphviz text: the nodes from 0 on, then the edges. -/
def text (g : Drawing) : String :=
  "digraph ast \x7b\n" ++ String.join (g.labels.mapIdx nodeLine) ++
    String.join (g.edges.map edgeLine) ++ "\x7d\n"

/-- An edge leads from `v` to `w`. -/
def Edge (g : Drawing) (v w : Nat) : Prop := (v, w) ∈ g.edges

/-- Edges lead from `v` down to `w`, one or more of them. -/
def Below (g : Drawing) : Nat → Nat → Prop := Relation.TransGen g.Edge

/-- **The drawing is a tree with its root at 0, numbered in pre-order.** -/
structure PreOrdered (g : Drawing) : Prop where
  /-- The edges lead to the nodes but 0, in the order of their numbers: there are as many, and no
      node has two. -/
  targets : g.edges.map Prod.snd = List.range' 1 (g.labels.length - 1)
  /-- Each of these nodes has one parent. -/
  parents : ∀ w, 0 < w → w < g.labels.length → ∃! v, g.Edge v w
  /-- Node 0 has none. -/
  root : ∀ v, ¬ g.Edge v 0
  /-- A parent has a smaller number than its child. -/
  lt : ∀ v w, g.Edge v w → v < w
  /-- All nodes are below node 0. -/
  rooted : ∀ w, 0 < w → w < g.labels.length → g.Below 0 w
  /-- What is below a node has the numbers right behind it. -/
  contiguous : ∀ v < g.labels.length, ∃ n ≤ g.labels.length,
    ∀ w, g.Below v w ↔ v < w ∧ w < n

/-- The edges lead to all nodes but 0, in order; they lead upwards in number and do not cross. -/
structure Rising (g : Drawing) : Prop where
  targets : g.edges.map Prod.snd = List.range' 1 (g.labels.length - 1)
  lt : ∀ v w, g.Edge v w → v < w
  uncrossed : ∀ q u r w, g.Edge q u → g.Edge r w → u < w → r < u → r ≤ q

namespace Rising

variable {g : Drawing} {v w : Nat}

theorem nodup (h : g.Rising) : (g.edges.map Prod.snd).Nodup := by
  rw [h.targets]
  exact List.nodup_range'

theorem target_iff (h : g.Rising) : (∃ v, g.Edge v w) ↔ 0 < w ∧ w < g.labels.length := by
  have hmem : w ∈ g.edges.map Prod.snd ↔ 1 ≤ w ∧ w < 1 + (g.labels.length - 1) := by
    rw [h.targets, List.mem_range'_1]
  constructor
  · rintro ⟨v, hv⟩
    have hrange := hmem.1 (List.mem_map_of_mem hv)
    omega
  · intro hw
    obtain ⟨⟨v, w'⟩, hv, rfl⟩ := List.mem_map.1 (hmem.2 (by omega))
    exact ⟨v, hv⟩

theorem parent_unique (h : g.Rising) {v' : Nat} (hv : g.Edge v w) (hv' : g.Edge v' w) :
    v = v' := by
  have heq : (v, w) = (v', w) := List.inj_on_of_nodup_map h.nodup hv hv' rfl
  exact congrArg Prod.fst heq

theorem lt_of_below (h : g.Rising) (hw : g.Below v w) : v < w := by
  induction hw with
  | single hedge => exact h.lt _ _ hedge
  | tail _ hedge ih => exact Nat.lt_trans ih (h.lt _ _ hedge)

/-- No edge leads to what lies between a node and one below it, nor to the latter, from before the
    node. -/
theorem le_parent_of_below (h : g.Rising) (hw : g.Below v w) {u q : Nat} (hvu : v < u)
    (huw : u ≤ w) (hq : g.Edge q u) : v ≤ q := by
  induction hw with
  | @single w hedge =>
    rcases Nat.lt_or_eq_of_le huw with huw | rfl
    · exact h.uncrossed q u v w hq hedge huw hvu
    · exact Nat.le_of_eq (h.parent_unique hedge hq)
  | @tail b c hb hedge ih =>
    by_cases hub : u ≤ b
    · exact ih hub
    · have hvb : v < b := h.lt_of_below hb
      rcases Nat.lt_or_eq_of_le huw with huw | rfl
      · exact Nat.le_trans (Nat.le_of_lt hvb) (h.uncrossed q u b c hq hedge huw (by omega))
      · exact h.parent_unique hedge hq ▸ Nat.le_of_lt hvb

/-- Where no edge leads past `v` from before it, the parents of a node lead up to `v`. -/
theorem below_of_le_parent (h : g.Rising) (hvw : v < w) (hw : w < g.labels.length)
    (hle : ∀ u q, v < u → u ≤ w → g.Edge q u → v ≤ q) : g.Below v w := by
  induction w using Nat.strong_induction_on with
  | _ w ih =>
    obtain ⟨q, hq⟩ := h.target_iff.2 ⟨by omega, hw⟩
    have hqw : q < w := h.lt q w hq
    rcases Nat.lt_or_eq_of_le (hle w q hvw le_rfl hq) with hvq | rfl
    · refine Relation.TransGen.tail (ih q hqw hvq (by omega) ?_) hq
      intro u q' hvu huq
      exact hle u q' hvu (by omega)
    · exact .single hq

/-- **What is below a node is told by the edges between.** -/
theorem below_iff (h : g.Rising) : g.Below v w ↔
    v < w ∧ w < g.labels.length ∧ ∀ u q, v < u → u ≤ w → g.Edge q u → v ≤ q := by
  constructor
  · intro hw
    have hend : ∃ v, g.Edge v w := by
      obtain ⟨b, -, hedge⟩ := Relation.TransGen.tail'_iff.1 hw
      exact ⟨b, hedge⟩
    exact ⟨h.lt_of_below hw, (h.target_iff.1 hend).2, fun u q => h.le_parent_of_below hw⟩
  · rintro ⟨hvw, hw, hle⟩
    exact h.below_of_le_parent hvw hw hle

theorem contiguous (h : g.Rising) (hv : v < g.labels.length) :
    ∃ n ≤ g.labels.length, ∀ w, g.Below v w ↔ v < w ∧ w < n := by
  classical
  have hlast : ¬ g.Below v g.labels.length := by
    intro hbelow
    obtain ⟨-, hlt, -⟩ := h.below_iff.1 hbelow
    exact absurd hlt (Nat.lt_irrefl _)
  -- The first node behind `v` that is not below it; what is behind that is not below `v` either.
  have hex : ∃ n, v < n ∧ ¬ g.Below v n := ⟨g.labels.length, hv, hlast⟩
  obtain ⟨hvn, hn⟩ := Nat.find_spec hex
  refine ⟨Nat.find hex, Nat.find_min' hex ⟨hv, hlast⟩, ?_⟩
  intro w
  constructor
  · intro hw
    obtain ⟨hvw, hwlt, hle⟩ := h.below_iff.1 hw
    refine ⟨hvw, ?_⟩
    by_contra hnw
    apply hn
    refine h.below_iff.2 ⟨hvn, by omega, ?_⟩
    intro u q hvu hun
    exact hle u q hvu (by omega)
  · rintro ⟨hvw, hwn⟩
    by_contra hnot
    exact Nat.find_min hex hwn ⟨hvw, hnot⟩

/-- **Rising edges that do not cross number a tree in pre-order.** -/
theorem preOrdered (h : g.Rising) : g.PreOrdered where
  targets := h.targets
  parents w hpos hw := by
    obtain ⟨v, hv⟩ := h.target_iff.2 ⟨hpos, hw⟩
    exact ⟨v, hv, fun v' hv' => h.parent_unique hv' hv⟩
  root v hv := absurd (h.lt v 0 hv) (Nat.not_lt_zero v)
  lt := h.lt
  rooted w hpos hw := h.below_of_le_parent hpos hw fun _ _ _ _ _ => Nat.zero_le _
  contiguous v hv := h.contiguous hv

end Rising

end Drawing

/-! ## The drawing of a diagram -/

namespace Diagram

/-- The edge to a node, if it has a parent. -/
def Entry.edge? (e : Entry) : Option (Nat × Nat) := e.parent.map fun p => (p, e.id)

/-- Labels and edges of the entries of a diagram. -/
def drawing (d : Diagram) : Drawing where
  labels := (d.entries none 0).map Entry.label
  edges := (d.entries none 0).filterMap Entry.edge?

variable {es : List Entry} {e : Entry} {v w : Nat}

theorem join_edgeLine (es : List Entry) :
    String.join (es.map Entry.edgeLine) =
      String.join ((es.filterMap Entry.edge?).map Drawing.edgeLine) := by
  induction es with
  | nil => rfl
  | cons e es ih =>
    obtain ⟨id, parent, label⟩ := e
    cases parent with
    | none =>
      rw [List.filterMap_cons_none rfl, ← ih]
      simp [Entry.edgeLine]
    | some p =>
      have hedge : Entry.edge? ⟨id, some p, label⟩ = some (p, id) := rfl
      rw [List.filterMap_cons_some hedge, List.map_cons, List.map_cons, String.join_cons,
        String.join_cons, ih]
      rfl

/-- Entries numbered from 0 have their positions for numbers. -/
theorem id_getElem {n i : Nat} (h : es.map Entry.id = List.range' 0 n) (hi : i < es.length) :
    es[i].id = i := by
  have hlen : es.length = n := by simpa using congrArg List.length h
  have hget : (es.map Entry.id)[i]? = (List.range' 0 n)[i]? := by rw [h]
  rw [hlen] at hi
  simpa [hi, hlen] using hget

theorem render_eq_text (d : Diagram) : d.render = d.drawing.text := by
  have hnodes : (d.entries none 0).map Entry.nodeLine =
      ((d.entries none 0).map Entry.label).mapIdx Drawing.nodeLine := by
    refine List.ext_getElem (by simp) fun i hi _ => ?_
    have hid := id_getElem (map_id_entries none 0 d) (by simpa using hi)
    simp [Entry.nodeLine, Drawing.nodeLine, hid]
  simp only [render, Drawing.text, drawing, hnodes, join_edgeLine]

theorem edge?_eq_some_iff : e.edge? = some (v, w) ↔ e.parent = some v ∧ e.id = w := by
  obtain ⟨id, parent, label⟩ := e
  cases parent <;> simp [Entry.edge?]

theorem map_target (h : ∀ e ∈ es, ∃ p, e.parent = some p) :
    (es.filterMap Entry.edge?).map Prod.snd = es.map Entry.id := by
  induction es with
  | nil => rfl
  | cons e es ih =>
    obtain ⟨⟨p, hp⟩, hes⟩ := List.forall_mem_cons.1 h
    rw [List.filterMap_cons_some (edge?_eq_some_iff.2 ⟨hp, rfl⟩), List.map_cons, ih hes,
      List.map_cons]

section

variable {label : String} {ds : List Diagram}

theorem entries_root :
    (node label ds).entries none 0 = ⟨0, none, label⟩ :: entriesOf 0 1 ds := rfl

theorem drawing_edges :
    (node label ds).drawing.edges = (entriesOf 0 1 ds).filterMap Entry.edge? := by
  unfold drawing
  rw [entries_root, List.filterMap_cons_none rfl]

theorem drawing_edge_iff : (node label ds).drawing.Edge v w ↔
    ∃ e ∈ entriesOf 0 1 ds, e.parent = some v ∧ e.id = w := by
  unfold Drawing.Edge
  rw [drawing_edges, List.mem_filterMap]
  simp only [edge?_eq_some_iff]

theorem length_labels (d : Diagram) : d.drawing.labels.length = d.size := by
  simp [drawing, length_entries]

theorem rising_drawing (d : Diagram) : d.drawing.Rising := by
  obtain ⟨label, ds⟩ := d
  have hparent (e : Entry) (he : e ∈ entriesOf 0 1 ds) := parent_entriesOf Nat.zero_lt_one he
  constructor
  · rw [length_labels, drawing_edges, map_target, map_id_entriesOf]
    · rfl
    · intro e he
      obtain ⟨p, hp, -⟩ := hparent e he
      exact ⟨p, hp⟩
  · intro v w hedge
    obtain ⟨e, he, hv, rfl⟩ := drawing_edge_iff.1 hedge
    obtain ⟨p, hp, -, hlt⟩ := hparent e he
    obtain rfl : v = p := Option.some.inj (hv.symm.trans hp)
    exact hlt
  · intro q u r w hqu hrw huw hru
    obtain ⟨e, he, hq, rfl⟩ := drawing_edge_iff.1 hqu
    obtain ⟨f, hf, hr, rfl⟩ := drawing_edge_iff.1 hrw
    exact parent_le_entriesOf Nat.zero_lt_one he hf hq hr huw hru

end

end Diagram

/-! ## What a drawing shows -/

namespace Drawing

/-- The children of a node, in the order of their edges. -/
def children (g : Drawing) (v : Nat) : List Nat :=
  (g.edges.filter fun e => e.1 = v).map Prod.snd

end Drawing

namespace Diagram

mutual

/-- **Node `v` shows the diagram:** it has its label, and its children show the diagram's, one each
    and in the same order. -/
def ShownAt (g : Drawing) (v : Nat) : Diagram → Prop
  | node label ds => g.labels[v]? = some label ∧ ShownAll g (g.children v) ds

def ShownAll (g : Drawing) : List Nat → List Diagram → Prop
  | [], [] => True
  | v :: vs, d :: ds => d.ShownAt g v ∧ ShownAll g vs ds
  | [], _ :: _ => False
  | _ :: _, [] => False

end

/-- The numbers of the entries below `v`. -/
def childrenIn (es : List Entry) (v : Nat) : List Nat :=
  (es.filter fun e => e.parent = some v).map Entry.id

/-- The numbers of diagrams drawn one after the other. -/
def starts (i : Nat) : List Diagram → List Nat
  | [] => []
  | d :: ds => i :: starts (i + d.size) ds

section

variable {es fs : List Entry} {g : Drawing} {label : String} {p i v : Nat} {d : Diagram}
  {ds : List Diagram}

theorem childrenIn_append :
    childrenIn (es ++ fs) v = childrenIn es v ++ childrenIn fs v := by
  simp [childrenIn]

theorem childrenIn_eq_nil (h : ∀ e ∈ es, e.parent ≠ some v) : childrenIn es v = [] := by
  unfold childrenIn
  rw [List.map_eq_nil_iff, List.filter_eq_nil_iff]
  exact fun e he heq => h e he (of_decide_eq_true heq)

theorem map_children (es : List Entry) (v : Nat) :
    ((es.filterMap Entry.edge?).filter fun e => e.1 = v).map Prod.snd = childrenIn es v := by
  induction es with
  | nil => rfl
  | cons e es ih =>
    obtain ⟨id, parent, label⟩ := e
    unfold childrenIn at ih ⊢
    cases parent with
    | none =>
      rw [List.filterMap_cons_none rfl, ih]
      simp
    | some p =>
      have hedge : Entry.edge? ⟨id, some p, label⟩ = some (p, id) := rfl
      rw [List.filterMap_cons_some hedge]
      by_cases hpv : p = v
      · simp [hpv, ih]
      · simp [hpv, ih]

/-- What is below the first node is no child of a node with a greater number than its own parent. -/
theorem childrenIn_entries (hp : p < i) (hv : i ≤ v) :
    childrenIn ((node label ds).entries (some p) i) v = childrenIn (entriesOf i (i + 1) ds) v := by
  have hne : p ≠ v := by omega
  simp [entries, childrenIn, hne]

/-- The children of `p` are the first nodes of what is drawn below it. -/
theorem childrenIn_entriesOf (hp : p < i) : childrenIn (entriesOf p i ds) p = starts i ds := by
  induction ds generalizing i with
  | nil => rfl
  | cons d ds ih =>
    obtain ⟨label, ds'⟩ := d
    have hnil : childrenIn (entriesOf i (i + 1) ds') p = [] := by
      refine childrenIn_eq_nil fun e he heq => ?_
      obtain ⟨q, hq, hge, -⟩ := parent_entriesOf (Nat.lt_succ_self i) he
      obtain rfl : p = q := Option.some.inj (heq.symm.trans hq)
      omega
    have hfirst : childrenIn ((node label ds').entries (some p) i) p = [i] := by
      show childrenIn ([⟨i, some p, label⟩] ++ entriesOf i (i + 1) ds') p = [i]
      rw [childrenIn_append, hnil]
      simp [childrenIn]
    rw [entriesOf_cons, childrenIn_append, hfirst, ih (by omega)]
    rfl

/-- A node inside the first of several diagrams has its children there. -/
theorem childrenIn_inside (hp : p < i) (hi : i ≤ v) (hv : v < i + d.size) :
    childrenIn (entriesOf p i (d :: ds)) v = childrenIn (d.entries (some p) i) v := by
  rw [entriesOf_cons, childrenIn_append, List.append_right_eq_self]
  refine childrenIn_eq_nil fun e he heq => ?_
  obtain ⟨q, hq, hge, -⟩ := parent_entriesOf (by omega) he
  obtain rfl : v = q := Option.some.inj (heq.symm.trans hq)
  omega

/-- A node behind the first of several diagrams has no child in it. -/
theorem childrenIn_behind (hp : p < i) (hv : i + d.size ≤ v) :
    childrenIn (entriesOf p i (d :: ds)) v = childrenIn (entriesOf p (i + d.size) ds) v := by
  rw [entriesOf_cons, childrenIn_append, List.append_left_eq_self]
  refine childrenIn_eq_nil fun e he heq => ?_
  obtain ⟨q, hq, -, hlt⟩ := parent_entries hp he
  obtain rfl : v = q := Option.some.inj (heq.symm.trans hq)
  have hlast := (id_of_mem_entries he).2
  omega

end

mutual

/-- A drawing that has the labels of the entries and their children shows the diagram. -/
theorem shownAt_entries {g : Drawing} {p i : Nat} {d : Diagram} (hp : p < i)
    (hl : ∀ e ∈ d.entries (some p) i, g.labels[e.id]? = some e.label)
    (hc : ∀ v, i ≤ v → v < i + d.size → g.children v = childrenIn (d.entries (some p) i) v) :
    d.ShownAt g i := by
  cases d with
  | node label ds =>
    have hc' (v : Nat) (hi : i ≤ v) (hv : v < i + 1 + sizes ds) :
        g.children v = childrenIn (entriesOf i (i + 1) ds) v := by
      rw [hc v hi (by rw [size]; omega), childrenIn_entries hp hi]
    refine ⟨hl _ (List.mem_cons_self ..), ?_⟩
    rw [hc' i le_rfl (by omega), childrenIn_entriesOf (Nat.lt_succ_self i)]
    apply shownAll_entriesOf (Nat.lt_succ_self i)
    · intro e he
      exact hl e (List.mem_cons_of_mem _ he)
    · intro v hi hv
      exact hc' v (by omega) hv

theorem shownAll_entriesOf {g : Drawing} {p i : Nat} {ds : List Diagram} (hp : p < i)
    (hl : ∀ e ∈ entriesOf p i ds, g.labels[e.id]? = some e.label)
    (hc : ∀ v, i ≤ v → v < i + sizes ds → g.children v = childrenIn (entriesOf p i ds) v) :
    ShownAll g (starts i ds) ds := by
  cases ds with
  | nil => trivial
  | cons d ds =>
    rw [sizes] at hc
    have hl' := hl
    rw [entriesOf_cons] at hl'
    obtain ⟨hfirst, hrest⟩ := List.forall_mem_append.1 hl'
    constructor
    · apply shownAt_entries hp hfirst
      intro v hi hv
      rw [hc v hi (by omega), childrenIn_inside hp hi hv]
    · apply shownAll_entriesOf (by omega) hrest
      intro v hi hv
      rw [hc v (by omega) (by omega), childrenIn_behind hp hi]

end

/-- **The drawing of a diagram shows it** from node 0 on. -/
theorem shownAt_drawing (d : Diagram) : d.ShownAt d.drawing 0 := by
  have hlabels : ∀ e ∈ d.entries none 0, d.drawing.labels[e.id]? = some e.label := by
    intro e he
    obtain ⟨i, hi, rfl⟩ := List.getElem_of_mem he
    rw [id_getElem (map_id_entries none 0 d) hi]
    simp [drawing, hi]
  obtain ⟨label, ds⟩ := d
  have hchildren (v : Nat) :
      (node label ds).drawing.children v = childrenIn (entriesOf 0 1 ds) v := by
    unfold Drawing.children
    rw [drawing_edges, map_children]
  refine ⟨hlabels _ (List.mem_cons_self ..), ?_⟩
  rw [hchildren, childrenIn_entriesOf Nat.zero_lt_one]
  apply shownAll_entriesOf Nat.zero_lt_one
  · intro e he
    exact hlabels e (List.mem_cons_of_mem _ he)
  · intro v _ _
    exact hchildren v

end Diagram

end PL0
