import Mathlib.Data.List.Basic
import Mathlib.Order.Fin.Basic
import Mathlib.Tactic.Common

/-!
# Operator precedence

The parser delivers binary operations as a chain which is nested to the right. `qbind__operations`
turns such a chain into the tree in which it is evaluated: it handles the rest of the chain first,
and rotates the first operation below the root of the result if that root binds less. The ten
classes of operators are numbered by how tight they bind, with ternary operations as the last one.
-/

namespace ThingsDB.Qbind

/-- The class of an operator, `CLERI_GID_OPR0_MUL_DIV_MOD` to `CLERI_GID_OPR9_TERNARY`. -/
abbrev Gid := Fin 10

def ternary : Gid := 9

/-- An operand, or an operation with a statement on both sides. -/
inductive Node (α ω : Type) where
  | operand (a : α)
  | operations (l : Node α ω) (o : ω) (r : Node α ω)
  deriving DecidableEq

structure Operation (α ω : Type) where
  l : Node α ω
  o : ω
  r : Node α ω

variable {α ω : Type}

def Operation.node (p : Operation α ω) : Node α ω := .operations p.l p.o p.r

/-- What the functions return: the node goes above its parent. -/
def above (gid parentGid : Gid) : Bool := parentGid < gid || (gid == parentGid && gid != ternary)

/-- Swap operations: the operation in `childb` goes above its parent, which gets its left side and
is swapped further from there. -/
def settle (cls : ω → Gid) (swap : Operation α ω → Gid → Option (Operation α ω × Bool))
    (parent : Operation α ω) (parentGid : Gid) (childb : Operation α ω) (swapped : Bool) :
    Option (Operation α ω × Bool) :=
  if swapped then
    (swap ⟨parent.l, parent.o, childb.l⟩ (cls childb.o)).map fun left =>
      (⟨left.1.node, childb.o, childb.r⟩, above (cls childb.o) parentGid)
  else some (⟨parent.l, parent.o, childb.node⟩, above (cls parent.o) parentGid)

/-- `qbind__swap`; no result is out of fuel. -/
def swap (cls : ω → Gid) : ℕ → Operation α ω → Gid → Option (Operation α ω × Bool)
  | 0, _, _ => none
  | fuel + 1, parent, parentGid =>
    match parent.r with
    | .operand _ => some (parent, above (cls parent.o) parentGid)
    | .operations a o b =>
      (swap cls fuel ⟨a, o, b⟩ (cls parent.o)).bind fun res =>
        settle cls (swap cls fuel) parent parentGid res.1 res.2

/-- `qbind__operations`, without what it does for the statements of the operands. -/
def operations (cls : ω → Gid) : ℕ → Operation α ω → Gid → Option (Operation α ω × Bool)
  | 0, _, _ => none
  | fuel + 1, parent, parentGid =>
    match parent.r with
    | .operand _ => some (parent, above (cls parent.o) parentGid)
    | .operations a o b =>
      (operations cls fuel ⟨a, o, b⟩ (cls parent.o)).bind fun res =>
        settle cls (swap cls fuel) parent parentGid res.1 res.2

/-- The chain which the parser delivers for an operand and what follows it. -/
def chain : α → List (ω × α) → Node α ω
  | e, [] => .operand e
  | e, (o, e') :: rest => .operations (.operand e) o (chain e' rest)

namespace Node

def inorder : Node α ω → α × List (ω × α)
  | .operand a => (a, [])
  | .operations l o r => (l.inorder.1, l.inorder.2 ++ (o, r.inorder.1) :: r.inorder.2)

theorem inorder_chain (e : α) (rest : List (ω × α)) : (chain e rest).inorder = (e, rest) := by
  induction rest generalizing e with
  | nil => rfl
  | cons p rest ih => rw [chain, inorder, ih, inorder, List.nil_append]

def oprs (nd : Node α ω) : List ω := nd.inorder.2.map Prod.fst

theorem oprs_operations (l : Node α ω) (o : ω) (r : Node α ω) :
    (operations l o r).oprs = l.oprs ++ o :: r.oprs := by
  rw [oprs, inorder, List.map_append, List.map_cons, oprs, oprs]

def gid? (cls : ω → Gid) : Node α ω → Option Gid
  | .operand _ => none
  | .operations _ o _ => some (cls o)

/-- The precedence tree: the root of a left side may have the class of its parent, unless this is
a ternary, and the root of a right side only if this is a ternary. -/
inductive Prec (cls : ω → Gid) : Node α ω → Prop
  | operand (a : α) : Prec cls (.operand a)
  | operations {l r : Node α ω} {o : ω} (left : Prec cls l) (right : Prec cls r)
    (left_le : ∀ g, l.gid? cls = some g → g ≤ cls o ∧ (cls o = ternary → g < cls o))
    (right_lt : ∀ g, r.gid? cls = some g → g ≤ cls o ∧ (cls o ≠ ternary → g < cls o)) :
    Prec cls (.operations l o r)

end Node

section Over

variable {g p : Gid}

theorem above_iff : above g p ↔ p ≤ g ∧ (g = ternary → p < g) := by
  simp only [above, Bool.or_eq_true, decide_eq_true_eq, Bool.and_eq_true, beq_iff_eq, bne_iff_ne]
  constructor
  · rintro (hlt | ⟨rfl, hne⟩)
    · exact ⟨hlt.le, fun _ => hlt⟩
    · exact ⟨le_rfl, fun h => absurd h hne⟩
  · rintro ⟨hle, hternary⟩
    obtain hlt | rfl := hle.lt_or_eq
    · exact .inl hlt
    · exact .inr ⟨rfl, fun h => lt_irrefl _ (hternary h)⟩

theorem above_eq_false_iff : above g p = false ↔ g ≤ p ∧ (p ≠ ternary → g < p) := by
  rw [← Bool.not_eq_true, above_iff]
  constructor
  · intro hnot
    obtain hlt | rfl | hgt := lt_trichotomy g p
    · exact ⟨hlt.le, fun _ => hlt⟩
    · exact ⟨le_rfl, fun hne => absurd ⟨le_rfl, fun h => absurd h hne⟩ hnot⟩
    · exact absurd ⟨hgt.le, fun _ => hgt⟩ hnot
  · rintro ⟨hle, hlt⟩ ⟨hge, hternary⟩
    obtain rfl := le_antisymm hle hge
    by_cases h : g = ternary
    · exact lt_irrefl _ (hternary h)
    · exact lt_irrefl _ (hlt h)

end Over

variable {p : Operation α ω} {o : ω} {l r : Node α ω} {g : Gid} {fuel : ℕ}

section Swap

variable {cls : ω → Gid}

open Node List

theorem prec_operations_iff : Prec cls (.operations l o r) ↔
    Prec cls l ∧ Prec cls r ∧ (∀ g, l.gid? cls = some g → above (cls o) g) ∧
      ∀ g, r.gid? cls = some g → above g (cls o) = false := by
  simp only [above_iff, above_eq_false_iff]
  constructor
  · rintro ⟨⟩
    exact ⟨‹_›, ‹_›, ‹_›, ‹_›⟩
  · rintro ⟨hl, hr, hleft, hright⟩
    exact .operations hl hr hleft hright

theorem swap_prec (h : Prec cls p.node) (hfuel : p.r.oprs.length < fuel) (g : Gid) :
    swap cls fuel p g = some (p, above (cls p.o) g) := by
  induction fuel generalizing p g with
  | zero => exact absurd hfuel (Nat.not_lt_zero _)
  | succ fuel ih =>
    obtain ⟨l, o, r⟩ := p
    obtain ⟨-, hr, -, hright⟩ := prec_operations_iff.mp h
    cases r with
    | operand a => rfl
    | operations a o' b =>
      have hfuel' : b.oprs.length < fuel := by
        simp only [oprs_operations, length_append, length_cons] at hfuel
        omega
      have hswap := ih (p := ⟨a, o', b⟩) hr hfuel' (cls o)
      have habove : above (cls o') (cls o) = false := hright (cls o') rfl
      simp only [swap, hswap, Option.bind_some, habove, settle, Bool.false_eq_true, if_false]
      rfl

/-- What inserting an operation at the left of a precedence tree gives. -/
structure Inserted (cls : ω → Gid) (p : Operation α ω) (g : Gid)
    (res : Operation α ω × Bool) : Prop where
  prec : Prec cls res.1.node
  inorder : res.1.node.inorder = p.node.inorder
  root : res.1.o = p.o ∨ p.r.gid? cls = some (cls res.1.o)
  above : res.2 = above (cls res.1.o) g

theorem inorder_rotate (l : Node α ω) (o : ω) (a : Node α ω) (o' : ω) (b : Node α ω) :
    (Node.operations (.operations l o a) o' b).inorder =
      (Node.operations l o (.operations a o' b)).inorder := by
  simp only [inorder, append_assoc, cons_append]

/-- The root of the right side goes above the operation, and the operation goes to its left. -/
theorem inserted_rotate {a b : Node α ω} {o' : ω} {left : Operation α ω × Bool}
    (hprec : Prec cls (.operations a o' b)) (habove : above (cls o') (cls o))
    (hleft : Inserted cls ⟨l, o, a⟩ (cls o') left) :
    Inserted cls ⟨l, o, .operations a o' b⟩ g
      (⟨left.1.node, o', b⟩, Qbind.above (cls o') g) := by
  obtain ⟨-, hb, hale, hblt⟩ := prec_operations_iff.mp hprec
  refine ⟨prec_operations_iff.mpr ⟨hleft.prec, hb, ?_, hblt⟩, ?_, .inr rfl, rfl⟩
  · rintro _ ⟨⟩
    obtain hroot | hroot := hleft.root
    · exact hroot ▸ habove
    · exact hale _ hroot
  · have hin : left.1.node.inorder = (Node.operations l o a).inorder := hleft.inorder
    refine Eq.trans ?_ (inorder_rotate l o a o' b)
    rw [Operation.node, Node.inorder, Node.inorder, hin]

theorem inserted_keep (hl : Prec cls l) (hr : Prec cls r)
    (hleft : ∀ g, l.gid? cls = some g → above (cls o) g)
    (hright : ∀ g, r.gid? cls = some g → above g (cls o) = false) :
    Inserted cls ⟨l, o, r⟩ g (⟨l, o, r⟩, Qbind.above (cls o) g) :=
  ⟨prec_operations_iff.mpr ⟨hl, hr, hleft, hright⟩, rfl, .inl rfl, rfl⟩

theorem inserted_settle {a b : Node α ω}
    {swap : Operation α ω → Gid → Option (Operation α ω × Bool)} (hl : Prec cls p.l)
    (hleft : ∀ g, p.l.gid? cls = some g → above (cls p.o) g)
    (hr : Prec cls (.operations a o b))
    (hswap : ∃ left, swap ⟨p.l, p.o, a⟩ (cls o) = some left ∧
      Inserted cls ⟨p.l, p.o, a⟩ (cls o) left) :
    ∃ res, settle cls swap p g ⟨a, o, b⟩ (above (cls o) (cls p.o)) = some res ∧
      Inserted cls ⟨p.l, p.o, .operations a o b⟩ g res := by
  rw [settle]
  cases habove : above (cls o) (cls p.o) with
  | false =>
    refine ⟨_, rfl, inserted_keep hl hr hleft ?_⟩
    rintro _ ⟨⟩
    exact habove
  | true =>
    obtain ⟨left, hswap, hins⟩ := hswap
    rw [if_pos rfl, hswap, Option.map_some]
    exact ⟨_, rfl, inserted_rotate hr habove hins⟩

theorem swap_inserted (hl : Prec cls p.l) (hr : Prec cls p.r)
    (hleft : ∀ g, p.l.gid? cls = some g → above (cls p.o) g) (hfuel : p.r.oprs.length < fuel)
    (g : Gid) : ∃ res, swap cls fuel p g = some res ∧ Inserted cls p g res := by
  induction fuel generalizing p g with
  | zero => exact absurd hfuel (Nat.not_lt_zero _)
  | succ fuel ih =>
    obtain ⟨l, o, r⟩ := p
    cases r with
    | operand a => exact ⟨_, rfl, inserted_keep hl hr hleft nofun⟩
    | operations a o' b =>
      have hlen : a.oprs.length < fuel ∧ b.oprs.length < fuel := by
        simp only [oprs_operations, length_append, length_cons] at hfuel
        omega
      have hchild := swap_prec (p := ⟨a, o', b⟩) hr hlen.2 (cls o)
      obtain ⟨ha, -, -, -⟩ := prec_operations_iff.mp hr
      simp only [swap, hchild, Option.bind_some]
      exact inserted_settle hl hleft hr (ih (p := ⟨l, o, a⟩) hl ha hleft hlen.1 (cls o'))

end Swap

section Operations

variable {cls : ω → Gid}

open Node

theorem operations_inserted (cls : ω → Gid) (e : α) (o : ω) (e' : α) (rest : List (ω × α))
    (hfuel : rest.length < fuel) (g : Gid) :
    ∃ res, operations cls fuel ⟨.operand e, o, chain e' rest⟩ g = some res ∧
      Prec cls res.1.node ∧ res.1.node.inorder = (e, (o, e') :: rest) ∧
      res.2 = above (cls res.1.o) g := by
  induction rest generalizing e o e' fuel g with
  | nil =>
    obtain ⟨fuel, rfl⟩ := Nat.exists_eq_add_of_lt hfuel
    exact ⟨_, rfl, .operations (.operand e) (.operand e') nofun nofun, rfl, rfl⟩
  | cons q rest ih =>
    obtain ⟨fuel, rfl⟩ : ∃ n, fuel = n + 1 := ⟨fuel - 1, by omega⟩
    obtain ⟨⟨⟨a, o', b⟩, swapped⟩, hrest, hprec, hin, hswapped⟩ :=
      ih e' q.1 q.2 (Nat.lt_of_succ_lt_succ hfuel) (cls o)
    obtain rfl : swapped = above (cls o') (cls o) := hswapped
    have hright : (Node.operations a o' b).inorder = (e', q :: rest) := hin
    have hlen : a.oprs.length < fuel := by
      have hall : (Node.operations a o' b).oprs.length = rest.length + 1 := by
        rw [oprs, hright, List.length_map, List.length_cons]
      rw [oprs_operations, List.length_append, List.length_cons] at hall
      rw [List.length_cons] at hfuel
      omega
    obtain ⟨ha, -, -, -⟩ := prec_operations_iff.mp hprec
    obtain ⟨res, hres, hins⟩ :=
      inserted_settle (p := ⟨.operand e, o, chain e' (q :: rest)⟩) (g := g) (.operand e) nofun hprec
        (swap_inserted (p := ⟨.operand e, o, a⟩) (.operand e) ha nofun hlen (cls o'))
    refine ⟨res, ?_, hins.prec, ?_, hins.above⟩
    · simp only [operations, chain, hrest, Option.bind_some]
      exact hres
    · rw [hins.inorder, Operation.node, inorder, hright]
      rfl

theorem Node.Prec.le_root {nd : Node α ω} (h : Prec cls nd) (hg : nd.gid? cls = some g) :
    ∀ x ∈ nd.oprs, cls x ≤ g := by
  induction h generalizing g with
  | operand a => cases hg
  | @operations l r o _ _ left_le right_lt ihl ihr =>
    cases hg
    intro x hx
    rw [oprs_operations, List.mem_append, List.mem_cons] at hx
    obtain hx | rfl | hx := hx
    · cases l with
      | operand a => cases hx
      | operations => exact (ihl rfl x hx).trans (left_le _ rfl).1
    · exact le_rfl
    · cases r with
      | operand a => cases hx
      | operations => exact (ihr rfl x hx).trans (right_lt _ rfl).1

section

variable (h : Prec cls (.operations l o r))

include h

theorem Node.Prec.above_left : ∀ x ∈ l.oprs, above (cls o) (cls x) := by
  intro x hx
  obtain ⟨hl, -, hleft, -⟩ := prec_operations_iff.mp h
  cases l with
  | operand a => cases hx
  | operations l' o' r' =>
    have hle := hl.le_root rfl x hx
    obtain ⟨hroot, hternary⟩ := above_iff.mp (hleft _ rfl)
    exact above_iff.mpr ⟨hle.trans hroot, fun ht => hle.trans_lt (hternary ht)⟩

theorem Node.Prec.not_above_right : ∀ x ∈ r.oprs, above (cls x) (cls o) = false := by
  intro x hx
  obtain ⟨-, hr, -, hright⟩ := prec_operations_iff.mp h
  cases r with
  | operand a => cases hx
  | operations l' o' r' =>
    have hle := hr.le_root rfl x hx
    obtain ⟨hroot, hternary⟩ := above_eq_false_iff.mp (hright _ rfl)
    exact above_eq_false_iff.mpr ⟨hle.trans hroot, fun ht => hle.trans_lt (hternary ht)⟩

/-- Two precedence trees do not have their roots at different places. -/
theorem Node.Prec.root_place {l' r' : Node α ω} {o' : ω} (h' : Prec cls (.operations l' o' r'))
    {as : List (ω × α)} (hl : l'.inorder.2 = l.inorder.2 ++ as)
    (hr : (o, r.inorder.1) :: r.inorder.2 = as ++ (o', r'.inorder.1) :: r'.inorder.2) :
    as = [] := by
  cases as with
  | nil => rfl
  | cons p as =>
    rw [List.cons_append, List.cons.injEq] at hr
    obtain ⟨rfl, hr⟩ := hr
    have ho : o ∈ l'.oprs := by
      rw [oprs, hl]
      simp
    have ho' : o' ∈ r.oprs := by
      rw [oprs, hr]
      simp
    have habove := h'.above_left o ho
    rw [h.not_above_right o' ho'] at habove
    cases habove

end

/-- There is one precedence tree for the same operands and operators. -/
theorem Node.Prec.unique {t t' : Node α ω} (h : Prec cls t) (h' : Prec cls t')
    (hin : t.inorder = t'.inorder) : t = t' := by
  induction h generalizing t' with
  | operand a =>
    cases h' with
    | operand a' =>
      cases hin
      rfl
    | operations => simp [inorder] at hin
  | @operations l r o hl hr left_le right_lt ihl ihr =>
    cases h' with
    | operand a' => simp [inorder] at hin
    | @operations l' r' o' hl' hr' left_le' right_lt' =>
      have ht : Prec cls (.operations l o r) := .operations hl hr left_le right_lt
      have ht' : Prec cls (.operations l' o' r') := .operations hl' hr' left_le' right_lt'
      obtain ⟨hfirst, hrest⟩ := Prod.ext_iff.mp hin
      simp only [inorder] at hfirst hrest
      obtain ⟨hmid, hlast⟩ : l.inorder.2 = l'.inorder.2 ∧
          (o, r.inorder.1) :: r.inorder.2 = (o', r'.inorder.1) :: r'.inorder.2 := by
        obtain ⟨as, hleft, hright⟩ | ⟨as, hleft, hright⟩ := List.append_eq_append_iff.mp hrest
        · obtain rfl := ht.root_place ht' hleft hright
          exact ⟨by rw [hleft, List.append_nil], hright⟩
        · obtain rfl := ht'.root_place ht hleft hright
          exact ⟨by rw [hleft, List.append_nil], hright.symm⟩
      simp only [List.cons.injEq, Prod.mk.injEq] at hlast
      obtain ⟨⟨rfl, hmiddle⟩, htail⟩ := hlast
      rw [ihl hl' (Prod.ext hfirst hmid), ihr hr' (Prod.ext hmiddle htail)]

/-- For every chain of at least one operation the result is the precedence tree of its operands and
operators. -/
theorem operations_is_precedence_tree (cls : ω → Gid) (e : α) (o : ω) (e' : α)
    (rest : List (ω × α)) (parentGid : Gid) :
    ∃ t : Operation α ω,
      (∀ fuel, rest.length < fuel →
        (operations cls fuel ⟨.operand e, o, chain e' rest⟩ parentGid).map Prod.fst = some t) ∧
      t.node.inorder = (chain e ((o, e') :: rest)).inorder ∧ Prec cls t.node ∧
      ∀ t', Prec cls t' → t'.inorder = (chain e ((o, e') :: rest)).inorder → t' = t.node := by
  obtain ⟨⟨t, swapped⟩, -, hprec, hin, -⟩ :=
    operations_inserted cls e o e' rest (Nat.lt_succ_self _) parentGid
  have hunique : ∀ t', Prec cls t' → t'.inorder = (e, (o, e') :: rest) → t' = t.node :=
    fun t' ht' hin' => ht'.unique hprec (hin'.trans hin.symm)
  refine ⟨t, fun fuel hfuel => ?_, ?_, hprec, fun t' ht' hin' => hunique t' ht' ?_⟩
  · obtain ⟨⟨u, swapped'⟩, hu, hprec', hin', -⟩ :=
      operations_inserted cls e o e' rest hfuel parentGid
    obtain ⟨l, o, r⟩ := t
    obtain ⟨l', o', r'⟩ := u
    have heq := hunique _ hprec' hin'
    simp only [Operation.node, Node.operations.injEq] at heq
    obtain ⟨rfl, rfl, rfl⟩ := heq
    rw [hu, Option.map_some]
  · rw [inorder_chain]
    exact hin
  · rwa [inorder_chain] at hin'

/-- `2 + 3 * 4 + 1` by the classes of its operators. -/
example : (operations id 3 ⟨.operand 2, 1, chain 3 [(0, 4), (1, 1)]⟩ 0).map (·.1.node) =
    some (.operations (.operations (.operand 2) 1 (.operations (.operand 3) 0 (.operand 4))) 1
      (.operand 1)) := by decide

end Operations

end ThingsDB.Qbind
