import ThingsDB.Lib.Wire
import ThingsDB.Types.Field

/-!
# Nested structures as packed data

`field__nested_to_pk` writes a nested structure with the texts of its fields. It returns after
the first field which is a nested structure itself, so that what comes after this field is not
written, but the header of the map counts it. `lost` is the number of values which are then
missing at the end.
-/

namespace ThingsDB.Types

open Wire List

inductive Pack where
  | arr
  | map
  deriving DecidableEq, Repr

/-- The header of a map counts keys and values. -/
def mapTok (entries : ℕ) : Tok Text Pack := .node .map (2 * entries)

def methodsToPk (methods : List (Text × Text)) : List (Tok Text Pack) :=
  methods.flatMap fun m => [.leaf m.1, .leaf m.2]

def idnameToPk (idname : Option Text) : List (Tok Text Pack) :=
  idname.elim [] fun name => [.leaf name, .leaf ['#']]

mutual

def Field.toPk : Field → List (Tok Text Pack)
  | .leaf _ text _ => [.leaf text]
  | .nest _ arr _ fields ano =>
    (if arr then [.node .arr 1] else []) ++
      mapTok (ano.idname.toList.length + (fields.length + ano.methods.length)) ::
        (idnameToPk ano.idname ++ fieldsToPk ano.methods fields)

/-- The loops over the fields and the methods, where the first one may return. -/
def fieldsToPk (methods : List (Text × Text)) : List Field → List (Tok Text Pack)
  | [] => methodsToPk methods
  | f :: fs =>
    match f with
    | .leaf name text _ => .leaf name :: .leaf text :: fieldsToPk methods fs
    | .nest name .. => .leaf name :: f.toPk

end

mutual

def Field.lost : Field → ℕ
  | .leaf .. => 0
  | .nest _ _ _ fields ano => fieldsLost ano.methods.length fields

def fieldsLost (methods : ℕ) : List Field → ℕ
  | [] => 0
  | f :: fs =>
    match f with
    | .leaf .. => fieldsLost methods fs
    | .nest .. => 2 * (fs.length + methods) + f.lost

end

section Lost

theorem need_methodsToPk (n : ℕ) (methods : List (Text × Text)) :
    need (n + 2 * methods.length) (methodsToPk methods) = n := by
  induction methods with
  | nil =>
    cases n with
    | zero => rfl
    | succ n => rfl
  | cons m ms ih =>
    rw [length_cons, Nat.mul_succ, ← Nat.add_assoc]
    exact ih

theorem need_idnameToPk {n : ℕ} {idname : Option Text} {ts : List (Tok Text Pack)} :
    need (n + 2 * idname.toList.length) (idnameToPk idname ++ ts) = need n ts := by
  cases idname with
  | none => rfl
  | some name => rfl

mutual

theorem need_toPk (n : ℕ) : ∀ f : Field, need (n + 1) f.toPk = n + f.lost
  | .leaf _ text _ => by
    cases n with
    | zero => rfl
    | succ n => rfl
  | .nest _ arr _ fields ano => by
    have hmap : need (n + 1) (mapTok (ano.idname.toList.length + (fields.length +
        ano.methods.length)) :: (idnameToPk ano.idname ++ fieldsToPk ano.methods fields)) =
        n + fieldsLost ano.methods.length fields := by
      have hcount : 2 * (ano.idname.toList.length + (fields.length + ano.methods.length)) + n =
          n + 2 * (fields.length + ano.methods.length) + 2 * ano.idname.toList.length := by omega
      rw [mapTok, need, hcount, need_idnameToPk]
      exact need_fieldsToPk n ano.methods fields
    rw [Field.toPk, Field.lost]
    cases arr with
    | false => exact hmap
    | true =>
      rw [if_pos rfl, singleton_append, need, Nat.add_comm 1 n]
      exact hmap

theorem need_fieldsToPk (n : ℕ) (methods : List (Text × Text)) : ∀ fs : List Field,
    need (n + 2 * (fs.length + methods.length)) (fieldsToPk methods fs) =
      n + fieldsLost methods.length fs
  | [] => by
    rw [fieldsToPk, fieldsLost, length_nil, Nat.zero_add]
    exact need_methodsToPk n methods
  | .leaf name text _ :: fs => by
    rw [fieldsToPk, fieldsLost, length_cons, Nat.add_right_comm, Nat.mul_succ, ← Nat.add_assoc]
    exact need_fieldsToPk n methods fs
  | .nest name arr raw fields ano :: fs => by
    rw [fieldsToPk, fieldsLost, length_cons, Nat.add_right_comm, Nat.mul_succ, ← Nat.add_assoc,
      need, need_toPk]
    omega

end

/-- What is missing makes the data unreadable. -/
theorem decode_toPk_eq_none {f : Field} (h : f.lost ≠ 0) : decode f.toPk = none := by
  apply decode_eq_none
  have hneed := need_toPk 0 f
  rw [Nat.zero_add, Nat.zero_add] at hneed
  omega

end Lost

section Complete

def methodTrees : List (Text × Text) → List (Tree Text Pack)
  | [] => []
  | m :: ms => .leaf m.1 :: .leaf m.2 :: methodTrees ms

mutual

def Field.tree : Field → Tree Text Pack
  | .leaf _ text _ => .leaf text
  | .nest _ arr _ fields ano =>
    let map : Tree Text Pack :=
      .node .map (ano.idname.elim [] (fun name => [.leaf name, .leaf ['#']]) ++
        fieldTrees (methodTrees ano.methods) fields)
    if arr then .node .arr [map] else map

def fieldTrees (methods : List (Tree Text Pack)) : List Field → List (Tree Text Pack)
  | [] => methods
  | f :: fs => .leaf f.name :: f.tree :: fieldTrees methods fs

end

theorem encodes_methods (methods : List (Text × Text)) :
    encodes (methodTrees methods) = methodsToPk methods := by
  induction methods with
  | nil => rfl
  | cons m ms ih =>
    simp only [methodTrees, encodes, encode, ih]
    rfl

theorem length_methods (methods : List (Text × Text)) :
    (methodTrees methods).length = 2 * methods.length := by
  induction methods with
  | nil => rfl
  | cons m ms ih =>
    rw [methodTrees, length_cons, length_cons, ih, length_cons]
    omega

theorem length_fieldTrees (methods : List (Tree Text Pack)) (fs : List Field) :
    (fieldTrees methods fs).length = 2 * fs.length + methods.length := by
  induction fs with
  | nil => simp [fieldTrees]
  | cons f fs ih =>
    rw [fieldTrees, length_cons, length_cons, ih, length_cons]
    omega

mutual

/-- If nothing is missing, the data is complete. -/
theorem toPk_eq_encode : ∀ f : Field, f.lost = 0 → f.toPk = encode f.tree
  | .leaf _ text _, _ => by rw [Field.toPk, Field.tree, encode]
  | .nest _ arr _ fields ano, h => by
    rw [Field.lost] at h
    have hfields := fieldsToPk_eq_encodes ano.methods fields h
    have hmap : mapTok (ano.idname.toList.length + (fields.length + ano.methods.length)) ::
        (idnameToPk ano.idname ++ fieldsToPk ano.methods fields) =
        encode (.node .map (ano.idname.elim [] (fun name => [.leaf name, .leaf ['#']]) ++
          fieldTrees (methodTrees ano.methods) fields)) := by
      rw [encode, hfields, mapTok]
      congr 1
      · congr 1
        rw [length_append, length_fieldTrees, length_methods]
        cases ano.idname with
        | none => simp; omega
        | some name => simp; omega
      · cases ano.idname with
        | none => rfl
        | some name => rfl
    rw [Field.toPk, Field.tree, hmap]
    cases arr with
    | false => rfl
    | true => simp [encode, encodes]

theorem fieldsToPk_eq_encodes (methods : List (Text × Text)) : ∀ fs : List Field,
    fieldsLost methods.length fs = 0 → fieldsToPk methods fs =
      encodes (fieldTrees (methodTrees methods) fs)
  | [], _ => by rw [fieldsToPk, fieldTrees, encodes_methods]
  | .leaf name text data :: fs, h => by
    rw [fieldsLost] at h
    rw [fieldsToPk, fieldTrees, fieldsToPk_eq_encodes methods fs h]
    simp [encodes, encode, Field.name, Field.tree]
  | .nest name arr raw fields ano :: fs, h => by
    rw [fieldsLost] at h
    obtain ⟨hnil, hlost⟩ : fs.length + methods.length = 0 ∧
        (Field.nest name arr raw fields ano).lost = 0 := by omega
    have hfs : fs = [] := eq_nil_of_length_eq_zero (by omega)
    have hmethods : methods = [] := eq_nil_of_length_eq_zero (by omega)
    rw [fieldsToPk, toPk_eq_encode _ hlost, hfs, hmethods]
    simp [fieldTrees, methodTrees, encodes, encode, Field.name]

end

end Complete

section Read

mutual

def toDecl : Tree Text Pack → Option Decl
  | .leaf s => some (.str s)
  | .node .arr ts =>
    match toDecls ts with
    | none => none
    | some [d] => some (.one d)
    | some ds => some (.many ds.length)
  | .node .map ts => (toProps ts).map .thing

def toDecls : List (Tree Text Pack) → Option (List Decl)
  | [] => some []
  | t :: ts => (toDecl t).bind fun d => (toDecls ts).map (d :: ·)

def toProps : List (Tree Text Pack) → Option Props
  | [] => some .nil
  | [_] => none
  | k :: v :: rest =>
    match k with
    | .leaf name => (toDecl v).bind fun d => (toProps rest).map (.cons name d)
    | .node _ _ => none

end

def unpack (ts : List (Tok Text Pack)) : Option Decl := (decode ts).bind toDecl

mutual

def Field.decl : Field → Decl
  | .leaf _ text _ => .str text
  | .nest _ arr _ fields ano =>
    let thing : Decl := .thing (ano.idname.elim (fieldProps ano.methods fields)
      fun name => .cons name (.str ['#']) (fieldProps ano.methods fields))
    if arr then .one thing else thing

def fieldProps (methods : List (Text × Text)) : List Field → Props
  | [] => methods.foldr (fun m rest => .cons m.1 (.str m.2) rest) .nil
  | f :: fs => .cons f.name f.decl (fieldProps methods fs)

end

theorem toProps_methods (methods : List (Text × Text)) :
    toProps (methodTrees methods) =
      some (methods.foldr (fun m rest => .cons m.1 (.str m.2) rest) .nil) := by
  induction methods with
  | nil => rfl
  | cons m ms ih => simp [methodTrees, toProps, toDecl, ih]

mutual

theorem toDecl_tree : ∀ f : Field, toDecl f.tree = some f.decl
  | .leaf _ text _ => by rw [Field.tree, Field.decl, toDecl]
  | .nest _ arr _ fields ano => by
    have hfields := toProps_fieldTrees ano.methods fields
    have hmap : toDecl (.node .map (ano.idname.elim [] (fun name => [.leaf name, .leaf ['#']]) ++
          fieldTrees (methodTrees ano.methods) fields)) =
        some (.thing (ano.idname.elim (fieldProps ano.methods fields)
          fun name => .cons name (.str ['#']) (fieldProps ano.methods fields))) := by
      cases ano.idname with
      | none => simp [toDecl, hfields]
      | some name => simp [toDecl, toProps, hfields]
    rw [Field.tree, Field.decl]
    cases arr with
    | false => exact hmap
    | true =>
      simp only [if_true]
      rw [toDecl, toDecls, hmap]
      rfl

theorem toProps_fieldTrees (methods : List (Text × Text)) : ∀ fs : List Field,
    toProps (fieldTrees (methodTrees methods) fs) =
      some (fieldProps methods fs)
  | [] => by rw [fieldTrees, fieldProps, toProps_methods]
  | f :: fs => by
    rw [fieldTrees, fieldProps, toProps, toDecl_tree f, toProps_fieldTrees methods fs]
    rfl

end

/-- A nested structure is read back if nothing is missing, and not at all if something is. -/
theorem unpack_toPk (f : Field) : unpack f.toPk = if f.lost = 0 then some f.decl else none := by
  split_ifs with h
  · rw [unpack, toPk_eq_encode f h, decode_encode, Option.bind_some, toDecl_tree]
  · rw [unpack, decode_toPk_eq_none h, Option.bind_none]

end Read

end ThingsDB.Types
