import Mathlib.Data.List.Forall2
import VueToSan.San.Strip

/-!
# Stripped trees

Stripping a tree drops its sources and nothing else. The result holds no source at any depth and is
the tree itself in all else, down to whether a property had a source; so stripping again changes
nothing, and two trees have the same result just when only their sources tell them apart.
-/

namespace VueToSan.San

/-- A function that drops from a value what `Bare` values lack and `Alike` does not compare. -/
structure Drops {α : Type} (strip : α → α) (Bare : α → Prop) (Alike : α → α → Prop) : Prop where
  bare : ∀ a, Bare (strip a)
  alike : ∀ a, Alike a (strip a)
  idempotent : ∀ a, strip (strip a) = strip a
  merges : ∀ a b, strip a = strip b ↔ Alike a b

theorem Drops.intro {α : Type} {strip : α → α} {Bare : α → Prop} {Alike : α → α → Prop}
    (hbare : ∀ a, Bare (strip a)) (hidempotent : ∀ a, strip (strip a) = strip a)
    (hmerges : ∀ a b, strip a = strip b ↔ Alike a b) : Drops strip Bare Alike where
  bare := hbare
  alike a := (hmerges a (strip a)).1 (hidempotent a).symm
  idempotent := hidempotent
  merges := hmerges

/-! ## Values and attributes -/

def Value.IsBare (v : Value) : Prop := v.raw = none

def Value.Alike (v w : Value) : Prop := v.kind = w.kind

/-- No source is left, though a mark that there was one may be. -/
structure Property.IsBare (p : Property) : Prop where
  value : p.value.IsBare
  raw : ∀ raw ∈ p.raw, raw = .present

structure Property.Alike (p q : Property) : Prop where
  name : p.name = q.name
  value : p.value.Alike q.value
  raw : p.raw.isSome = q.raw.isSome
  twoWay : p.twoWay = q.twoWay

structure Listener.IsBare (l : Listener) : Prop where
  handler : l.handler.IsBare
  raw : l.raw = none

structure Listener.Alike (l k : Listener) : Prop where
  name : l.name = k.name
  modifiers : l.modifiers = k.modifiers
  handler : l.handler.Alike k.handler

structure Directive.IsBare (d : Directive) : Prop where
  value : ∀ v ∈ d.value, v.IsBare
  trackBy : ∀ v ∈ d.trackBy, v.IsBare
  raw : d.raw = none

structure Directive.Alike (d c : Directive) : Prop where
  value : Option.Rel Value.Alike d.value c.value
  item : d.item = c.item
  index : d.index = c.index
  trackBy : Option.Rel Value.Alike d.trackBy c.trackBy

structure Head.IsBare (h : Head) : Prop where
  properties : ∀ p ∈ h.properties, p.IsBare
  listeners : ∀ l ∈ h.listeners, l.IsBare
  directives : ∀ entry ∈ h.directives, entry.2.IsBare
  raw : h.raw = none

structure Head.Alike (h k : Head) : Prop where
  tag : h.tag = k.tag
  properties : List.Forall₂ Property.Alike h.properties k.properties
  listeners : List.Forall₂ Listener.Alike h.listeners k.listeners
  directives : List.Forall₂ (fun d c => d.1 = c.1 ∧ d.2.Alike c.2) h.directives k.directives

/-! ## Trees -/

mutual

def Node.IsBare : Node → Prop
  | .text value => value.IsBare
  | .element e => e.IsBare

def Element.IsBare : Element → Prop
  | ⟨head, children, elses⟩ => head.IsBare ∧ NodesBare children ∧ ElementsBare elses

def NodesBare : List Node → Prop
  | [] => True
  | node :: rest => node.IsBare ∧ NodesBare rest

def ElementsBare : List Element → Prop
  | [] => True
  | e :: rest => e.IsBare ∧ ElementsBare rest

end

mutual

/-- Whether two trees are the same but for sources, with sources at the same properties. -/
def Node.Alike : Node → Node → Prop
  | .text v, .text w => v.Alike w
  | .element e, .element f => e.Alike f
  | _, _ => False

def Element.Alike : Element → Element → Prop
  | ⟨head, children, elses⟩, ⟨head', children', elses'⟩ =>
    head.Alike head' ∧ NodesAlike children children' ∧ ElementsAlike elses elses'

def NodesAlike : List Node → List Node → Prop
  | [], [] => True
  | node :: rest, node' :: rest' => node.Alike node' ∧ NodesAlike rest rest'
  | _, _ => False

def ElementsAlike : List Element → List Element → Prop
  | [], [] => True
  | e :: rest, e' :: rest' => e.Alike e' ∧ ElementsAlike rest rest'
  | _, _ => False

end

/-! ## What is left of values and attributes -/

theorem map_eq_map_iff {α β : Type} {f : α → β} {as bs : List α} :
    as.map f = bs.map f ↔ List.Forall₂ (fun a b => f a = f b) as bs := by
  rw [← List.forall₂_eq_eq_eq, List.forall₂_map_left_iff, List.forall₂_map_right_iff]

theorem Value.strip_eq_strip_iff (v w : Value) : v.strip = w.strip ↔ v.Alike w := by
  simp [Value.strip, Value.Alike]

theorem Value.map_strip_eq_iff (v w : Option Value) :
    v.map (·.strip) = w.map (·.strip) ↔ Option.Rel Value.Alike v w := by
  cases v <;> cases w <;> simp [Value.strip_eq_strip_iff]

theorem Property.isBare_strip (p : Property) : p.strip.IsBare where
  value := rfl
  raw raw hraw := by
    obtain ⟨_, -, rfl⟩ := Option.map_eq_some_iff.1 hraw
    rfl

theorem Property.strip_strip (p : Property) : p.strip.strip = p.strip := by
  simp [Property.strip, Value.strip, Function.comp_def]

theorem Property.strip_eq_strip_iff (p q : Property) : p.strip = q.strip ↔ p.Alike q := by
  have hraw : p.raw.map (fun _ => Raw.present) = q.raw.map (fun _ => Raw.present) ↔
      p.raw.isSome = q.raw.isSome := by
    cases p.raw <;> cases q.raw <;> simp
  simp only [Property.strip, Property.mk.injEq, Value.strip_eq_strip_iff, hraw]
  exact ⟨fun ⟨hn, hv, hr, ht⟩ => ⟨hn, hv, hr, ht⟩, fun ⟨hn, hv, hr, ht⟩ => ⟨hn, hv, hr, ht⟩⟩

theorem Listener.isBare_strip (l : Listener) : l.strip.IsBare := ⟨rfl, rfl⟩

theorem Listener.strip_strip (l : Listener) : l.strip.strip = l.strip := rfl

theorem Listener.strip_eq_strip_iff (l k : Listener) : l.strip = k.strip ↔ l.Alike k := by
  simp only [Listener.strip, Listener.mk.injEq, Value.strip_eq_strip_iff, and_true]
  exact ⟨fun ⟨hn, hm, hh⟩ => ⟨hn, hm, hh⟩, fun ⟨hn, hm, hh⟩ => ⟨hn, hm, hh⟩⟩

theorem Directive.isBare_strip (d : Directive) : d.strip.IsBare where
  value v hv := by
    obtain ⟨w, -, rfl⟩ := Option.map_eq_some_iff.1 hv
    rfl
  trackBy v hv := by
    obtain ⟨w, -, rfl⟩ := Option.map_eq_some_iff.1 hv
    rfl
  raw := rfl

theorem Directive.strip_strip (d : Directive) : d.strip.strip = d.strip := by
  simp [Directive.strip, Value.strip, Function.comp_def]

theorem Directive.strip_eq_strip_iff (d c : Directive) : d.strip = c.strip ↔ d.Alike c := by
  simp only [Directive.strip, Directive.mk.injEq, Value.map_strip_eq_iff, and_true]
  exact ⟨fun ⟨hv, hi, hx, ht⟩ => ⟨hv, hi, hx, ht⟩, fun ⟨hv, hi, hx, ht⟩ => ⟨hv, hi, hx, ht⟩⟩

theorem Head.isBare_strip (h : Head) : h.strip.IsBare where
  properties p hp := by
    obtain ⟨q, -, rfl⟩ := List.mem_map.1 hp
    exact q.isBare_strip
  listeners l hl := by
    obtain ⟨k, -, rfl⟩ := List.mem_map.1 hl
    exact k.isBare_strip
  directives entry hentry := by
    obtain ⟨⟨name, d⟩, -, rfl⟩ := List.mem_map.1 hentry
    exact d.isBare_strip
  raw := rfl

theorem Head.strip_strip (h : Head) : h.strip.strip = h.strip := by
  simp [Head.strip, Function.comp_def, Property.strip_strip, Listener.strip_strip,
    Directive.strip_strip]

theorem Head.strip_eq_strip_iff (h k : Head) : h.strip = k.strip ↔ h.Alike k := by
  simp only [Head.strip, Head.mk.injEq, map_eq_map_iff, Prod.mk.injEq,
    Property.strip_eq_strip_iff, Listener.strip_eq_strip_iff, Directive.strip_eq_strip_iff,
    and_true]
  exact ⟨fun ⟨ht, hp, hl, hd⟩ => ⟨ht, hp, hl, hd⟩, fun ⟨ht, hp, hl, hd⟩ => ⟨ht, hp, hl, hd⟩⟩

/-! ## What is left of trees -/

mutual

theorem Node.isBare_strip : ∀ node : Node, node.strip.IsBare
  | .text _ => rfl
  | .element e => e.isBare_strip

theorem Element.isBare_strip : ∀ e : Element, e.strip.IsBare
  | ⟨head, children, elses⟩ =>
    ⟨head.isBare_strip, nodesBare_strip children, elementsBare_strip elses⟩

theorem nodesBare_strip : ∀ nodes : List Node, NodesBare (stripNodes nodes)
  | [] => trivial
  | node :: rest => ⟨node.isBare_strip, nodesBare_strip rest⟩

theorem elementsBare_strip : ∀ es : List Element, ElementsBare (stripElements es)
  | [] => trivial
  | e :: rest => ⟨e.isBare_strip, elementsBare_strip rest⟩

end

mutual

theorem Node.strip_strip : ∀ node : Node, node.strip.strip = node.strip
  | .text _ => rfl
  | .element e => by simp only [Node.strip, e.strip_strip]

theorem Element.strip_strip : ∀ e : Element, e.strip.strip = e.strip
  | ⟨head, children, elses⟩ => by
    simp only [Element.strip, head.strip_strip, stripNodes_strip children,
      stripElements_strip elses]

theorem stripNodes_strip : ∀ nodes : List Node,
    stripNodes (stripNodes nodes) = stripNodes nodes
  | [] => rfl
  | node :: rest => by simp only [stripNodes, node.strip_strip, stripNodes_strip rest]

theorem stripElements_strip : ∀ es : List Element,
    stripElements (stripElements es) = stripElements es
  | [] => rfl
  | e :: rest => by simp only [stripElements, e.strip_strip, stripElements_strip rest]

end

mutual

theorem Node.strip_eq_strip_iff : ∀ a b : Node, a.strip = b.strip ↔ a.Alike b
  | .text v, .text w => by
    simp only [Node.strip, Node.Alike, Node.text.injEq, v.strip_eq_strip_iff]
  | .element e, .element f => by
    simp only [Node.strip, Node.Alike, Node.element.injEq, e.strip_eq_strip_iff f]
  | .text _, .element _ => by simp only [Node.strip, Node.Alike, reduceCtorEq]
  | .element _, .text _ => by simp only [Node.strip, Node.Alike, reduceCtorEq]

theorem Element.strip_eq_strip_iff : ∀ e f : Element, e.strip = f.strip ↔ e.Alike f
  | ⟨head, children, elses⟩, ⟨head', children', elses'⟩ => by
    simp only [Element.strip, Element.Alike, Element.mk.injEq, head.strip_eq_strip_iff,
      stripNodes_eq_iff children children', stripElements_eq_iff elses elses']

theorem stripNodes_eq_iff : ∀ as bs : List Node,
    stripNodes as = stripNodes bs ↔ NodesAlike as bs
  | [], [] => by simp only [stripNodes, NodesAlike]
  | a :: as, b :: bs => by
    simp only [stripNodes, NodesAlike, List.cons.injEq, a.strip_eq_strip_iff b,
      stripNodes_eq_iff as bs]
  | [], _ :: _ => by simp only [stripNodes, NodesAlike, reduceCtorEq]
  | _ :: _, [] => by simp only [stripNodes, NodesAlike, reduceCtorEq]

theorem stripElements_eq_iff : ∀ es fs : List Element,
    stripElements es = stripElements fs ↔ ElementsAlike es fs
  | [], [] => by simp only [stripElements, ElementsAlike]
  | e :: es, f :: fs => by
    simp only [stripElements, ElementsAlike, List.cons.injEq, e.strip_eq_strip_iff f,
      stripElements_eq_iff es fs]
  | [], _ :: _ => by simp only [stripElements, ElementsAlike, reduceCtorEq]
  | _ :: _, [] => by simp only [stripElements, ElementsAlike, reduceCtorEq]

end

/-- Stripping drops precisely the sources, of a tree and of the list that a template is. -/
theorem strip_drops_sources :
    Drops Node.strip Node.IsBare Node.Alike ∧ Drops stripNodes NodesBare NodesAlike :=
  ⟨Drops.intro Node.isBare_strip Node.strip_strip Node.strip_eq_strip_iff,
    Drops.intro nodesBare_strip stripNodes_strip stripNodes_eq_iff⟩

end VueToSan.San
