import Mathlib.Data.List.FinRange
import Mathlib.Logic.Function.Basic

/-!
# A tree of processes that fork, exit and are reaped

What `wait_lock` protects, without the locks: who has which parent, and which slots are in use. A
process that leaves hands its children to the first one, one slot of the table at a time; whoever has
a parent has one that has not left.
-/

namespace Xv6

inductive Kind where
  | unused
  | used
  | live
  | zombie
  deriving DecidableEq

inductive Role (n : Nat) where
  | none
  /-- It has a new slot, which is nobody's child yet. -/
  | forking (child : Fin n)
  /-- The slot is its child, and about to run. -/
  | parented (child : Fin n)
  /-- It hands its children on, and has yet to look at these slots. -/
  | leaving (rest : List (Fin n))

@[ext]
structure Family (n : Nat) where
  kind : Fin n → Kind
  parent : Fin n → Option (Fin n)
  role : Fin n → Role n

namespace Family

variable {n : Nat}

def Fills (family : Family n) (p child : Fin n) : Prop :=
  family.role p = .forking child ∨ family.role p = .parented child

structure Inv (initproc : Fin n) (family : Family n) : Prop where
  first : family.kind initproc = .live
  busy : ∀ p, family.role p ≠ .none → family.kind p = .live
  forking : ∀ p child, family.role p = .forking child →
    family.kind child = .used ∧ family.parent child = none
  parented : ∀ p child, family.role p = .parented child →
    family.kind child = .used ∧ family.parent child = some p
  filled : ∀ p q child, family.Fills p child → family.Fills q child → p = q
  leaving : ∀ p rest, family.role p = .leaving rest →
    p ≠ initproc ∧ ∀ c, family.parent c = some p → c ∈ rest
  parent : ∀ c p, family.parent c = some p → family.kind p = .live ∧ family.kind c ≠ .unused
  child : ∀ c, family.kind c = .live ∨ family.kind c = .zombie → c ≠ initproc →
    ∃ p, family.parent c = some p

def setRole (family : Family n) (p : Fin n) (role : Role n) : Family n :=
  { family with role := Function.update family.role p role }

def fork (family : Family n) (p child : Fin n) : Family n :=
  { family with
    kind := Function.update family.kind child .used
    role := Function.update family.role p (.forking child) }

def adopt (family : Family n) (p child : Fin n) : Family n :=
  { family with
    parent := Function.update family.parent child (some p)
    role := Function.update family.role p (.parented child) }

def begin (family : Family n) (p child : Fin n) : Family n :=
  { family with
    kind := Function.update family.kind child .live
    role := Function.update family.role p .none }

def leave (family : Family n) (p : Fin n) : Family n :=
  family.setRole p (.leaving (List.finRange n))

def orphan (family : Family n) (initproc p child : Fin n) (rest : List (Fin n)) : Family n :=
  { family with
    parent := Function.update family.parent child (some initproc)
    role := Function.update family.role p (.leaving rest) }

def exit (family : Family n) (p : Fin n) : Family n :=
  { family with
    kind := Function.update family.kind p .zombie
    role := Function.update family.role p .none }

def reap (family : Family n) (child : Fin n) : Family n :=
  { family with
    kind := Function.update family.kind child .unused
    parent := Function.update family.parent child none }

/-! ### What keeps the tree in order -/

namespace Inv

variable {initproc p child : Fin n} {family : Family n} {rest : List (Fin n)}

theorem not_fills (h : Inv initproc family) (hkind : family.kind child ≠ .used) (q : Fin n) :
    ¬family.Fills q child := by
  rintro (hrole | hrole)
  · exact hkind (h.forking q child hrole).1
  · exact hkind (h.parented q child hrole).1

theorem not_parent (h : Inv initproc family) (hkind : family.kind p ≠ .live) (c : Fin n) :
    family.parent c ≠ some p :=
  fun hparent => hkind (h.parent c p hparent).1

theorem parent_eq_none (h : Inv initproc family) (hkind : family.kind child = .unused) :
    family.parent child = none := by
  by_contra hne
  obtain ⟨q, hq⟩ := Option.ne_none_iff_exists'.mp hne
  exact (h.parent child q hq).2 hkind

theorem fork (h : Inv initproc family) (hp : family.kind p = .live)
    (hchild : family.kind child = .unused) : Inv initproc (family.fork p child) := by
  have hfree : ∀ q, ¬family.Fills q child := h.not_fills (by simp [hchild])
  have hnone := h.parent_eq_none hchild
  have hnot := h.not_parent (p := child) (by simp [hchild])
  obtain ⟨hfirst, hbusy, hforking, hparented, hfilled, hleaving, hparent, hchildren⟩ := h
  constructor
  all_goals
    simp only [Family.fork, Fills, Function.update_apply] at *
    grind

theorem adopt (h : Inv initproc family) (hrole : family.role p = .forking child) :
    Inv initproc (family.adopt p child) := by
  have hp := h.busy p (by simp [hrole])
  have hchild := h.forking p child hrole
  have hnot := h.not_parent (p := child) (by simp [hchild])
  obtain ⟨hfirst, hbusy, hforking, hparented, hfilled, hleaving, hparent, hchildren⟩ := h
  constructor
  all_goals
    simp only [Family.adopt, Fills, Function.update_apply] at *
    grind

theorem begin (h : Inv initproc family) (hrole : family.role p = .parented child) :
    Inv initproc (family.begin p child) := by
  have hp := h.busy p (by simp [hrole])
  have hchild := h.parented p child hrole
  have hnot := h.not_parent (p := child) (by simp [hchild])
  obtain ⟨hfirst, hbusy, hforking, hparented, hfilled, hleaving, hparent, hchildren⟩ := h
  constructor
  all_goals
    simp only [Family.begin, Fills, Function.update_apply] at *
    grind

theorem leave (h : Inv initproc family) (hp : family.kind p = .live) (hne : p ≠ initproc) :
    Inv initproc (family.leave p) := by
  have hall : ∀ c : Fin n, c ∈ List.finRange n := List.mem_finRange
  obtain ⟨hfirst, hbusy, hforking, hparented, hfilled, hleaving, hparent, hchildren⟩ := h
  constructor
  all_goals
    simp only [Family.leave, setRole, Fills, Function.update_apply] at *
    grind

theorem pass (h : Inv initproc family) (hrole : family.role p = .leaving (child :: rest))
    (hnot : family.parent child ≠ some p) : Inv initproc (family.setRole p (.leaving rest)) := by
  have hp := h.busy p (by simp [hrole])
  have hleaves := h.leaving p _ hrole
  obtain ⟨hfirst, hbusy, hforking, hparented, hfilled, hleaving, hparent, hchildren⟩ := h
  constructor
  all_goals
    simp only [setRole, Fills, Function.update_apply] at *
    grind

theorem orphan (h : Inv initproc family) (hrole : family.role p = .leaving (child :: rest))
    (hparent : family.parent child = some p) : Inv initproc (family.orphan initproc p child rest) := by
  have hp := h.busy p (by simp [hrole])
  have hleaves := h.leaving p _ hrole
  have hused := (h.parent child p hparent).2
  -- a slot still being filled has the process that fills it for parent, and that one is not leaving
  have hfree : ∀ q, ¬family.Fills q child := by
    rintro q (hfills | hfills)
    · rw [(h.forking q child hfills).2] at hparent
      cases hparent
    · rw [(h.parented q child hfills).2] at hparent
      cases hparent
      rw [hrole] at hfills
      cases hfills
  obtain ⟨hfirst, hbusy, hforking, hparented, hfilled, hleaving, hparents, hchildren⟩ := h
  constructor
  all_goals
    simp only [Family.orphan, Fills, Function.update_apply] at *
    grind

theorem exit (h : Inv initproc family) (hrole : family.role p = .leaving []) :
    Inv initproc (family.exit p) := by
  have hp := h.busy p (by simp [hrole])
  have hleaves := h.leaving p _ hrole
  have hfree : ∀ q, ¬family.Fills q p := h.not_fills (by simp [hp])
  obtain ⟨hfirst, hbusy, hforking, hparented, hfilled, hleaving, hparent, hchildren⟩ := h
  constructor
  all_goals
    simp only [Family.exit, Fills, Function.update_apply] at *
    grind

theorem reap (h : Inv initproc family) (hchild : family.kind child = .zombie) :
    Inv initproc (family.reap child) := by
  have hnot := h.not_parent (p := child) (by simp [hchild])
  have hfree : ∀ q, ¬family.Fills q child := h.not_fills (by simp [hchild])
  obtain ⟨hfirst, hbusy, hforking, hparented, hfilled, hleaving, hparent, hchildren⟩ := h
  constructor
  all_goals
    simp only [Family.reap, Fills, Function.update_apply] at *
    grind

end Inv

end Family

end Xv6
