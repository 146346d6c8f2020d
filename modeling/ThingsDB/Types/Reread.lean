import ThingsDB.Types.Countable
import ThingsDB.Types.Rename

/-!
# Reading a declaration again after a rename

A text with the new name is read as before. This is different in a nested structure with the
name of the type it belongs to, which is stored as the specification of the first type.
-/

namespace ThingsDB.Types

open List

variable {E E' : Env} {x x' : Ctx} {c c' : Counts} {s : Text} {sc : Scan} {data : Leaf}
  {tgt u : Target} {old nname w : Text}

section Names

theorem isName_chars (h : isName w) : ∀ c ∈ w, (c.isAlphanum || c = '_') = true := by
  cases w with
  | nil => simp
  | cons a w =>
    simp only [isName, Bool.and_eq_true, all_eq_true] at h
    intro c hc
    rcases mem_cons.mp hc with rfl | hc
    · have hhead := h.1.2
      simp only [Bool.or_eq_true, decide_eq_true_eq] at hhead ⊢
      rcases hhead with halpha | hunder
      · exact Or.inl (by simp [Char.isAlphanum, halpha])
      · exact Or.inr hunder
    · exact h.2 c hc

theorem not_mem_of_isName (h : isName w) {c : Char} (hc : (c.isAlphanum || c = '_') = false) :
    c ∉ w := fun hmem => by simpa [hc] using isName_chars h c hmem

/-- What may follow a name: nothing, or a default member. -/
def NameTail (tail : Text) : Prop := tail = [] ∨ ∃ member, tail = '{' :: (member ++ ['}'])

/-- A name, and a name with a default member, are not taken for something else. -/
theorem goodWord_of_isName (h : isName w) {tail : Text} (htail : NameTail tail) :
    GoodWord (w ++ tail) := by
  have hchars := isName_chars h
  have hne : ∀ c ∈ w, ∀ d : Char, (d.isAlphanum || d = '_') = false → c ≠ d := by
    rintro c hc d hd rfl
    exact not_mem_of_isName h hd hc
  obtain ⟨a, v, rfl⟩ : ∃ a v, w = a :: v := by
    cases w with
    | nil => cases h
    | cons a v => exact ⟨a, v, rfl⟩
  have ha := hne a mem_cons_self
  constructor
  case head =>
    refine ⟨a, rfl, ?_, ha '[' rfl, ha '{' rfl, ha '/' rfl⟩
    simp [isFlagChar, ha '^' rfl, ha '&' rfl, ha '-' rfl, ha '+' rfl, ha '*' rfl, ha '?' rfl,
      ha '!' rfl]
  case last =>
    rcases htail with rfl | ⟨member, rfl⟩
    · have hlast := hne _ (getLast_mem (cons_ne_nil a v))
      refine ⟨_, ?_, hlast '?' rfl, hlast '>' rfl⟩
      rw [append_nil, getLast?_eq_some_getLast]
    · refine ⟨'}', ?_, by decide, by decide⟩
      rw [← cons_append, ← append_assoc]
      exact getLast?_concat
  case thing =>
    rintro ⟨z, hz⟩
    have hdrop := congrArg (dropWhile fun c => c.isAlphanum || c = '_') hz
    rw [dropWhile_append_of_pos hchars] at hdrop
    have hopen : (thingOpen ++ z).dropWhile (fun c => c.isAlphanum || c = '_') = '<' :: z := rfl
    rw [hopen] at hdrop
    rcases htail with rfl | ⟨member, rfl⟩
    · cases hdrop
    · cases hdrop

end Names

def Scan.withWord (sc : Scan) (w : Text) : Scan := { sc with word := w }

@[simp] theorem word_withWord (w : Text) : (sc.withWord w).word = w := rfl

@[simp] theorem outer_withWord (w : Text) : (sc.withWord w).outer = sc.outer := rfl

section Found

variable {b : Base} {cond : Cond}

theorem found_word (h : found sc (.plain b) cond = .ok data) (w : Text) :
    found (sc.withWord w) (.plain b) cond = .ok data := by
  have hplace : place (sc.withWord w) (.plain b) = place sc (.plain b) := rfl
  have hdone : done (sc.withWord w) (place sc (.plain b)).1 =
    done sc (place sc (.plain b)).1 := rfl
  have hset : setErr sc (place sc (.plain b)).1 (place sc (.plain b)).2 = none →
      setErr (sc.withWord w) (place sc (.plain b)).1 (place sc (.plain b)).2 = none := by
    unfold setErr
    split_ifs <;> simp
  unfold found at h ⊢
  simp only [hplace, hdone] at h ⊢
  split at h
  · cases h
  · cases h
  · next hd hs =>
    rw [hd, hset hs]
    exact h

def Cond.tail : Cond → Text
  | .member _ name => '{' :: (name ++ ['}'])
  | .none | .info _ => []

theorem nameTail_tail (cond : Cond) : NameTail cond.tail := by
  cases cond with
  | member _ member => exact Or.inr ⟨member, rfl⟩
  | none => exact Or.inl rfl
  | info i => exact Or.inl rfl

/-- The conditions of names: a default member only for an enumerator without brackets. -/
inductive NameCond (sc : Scan) : Base → Cond → Prop where
  | type (i : TypeId) : NameCond sc (.typeId i) .none
  | enum (i : EnumId) : NameCond sc (.enumId i) .none
  | member (i : EnumId) (member : Text) : sc.outer = .plain →
      NameCond sc (.enumId i) (.member i member)

/-- The new text has the new name in the place of the old one. -/
theorem renText_found (h : found sc (.plain b) cond = .ok data) (hcond : NameCond sc b cond)
    (hu : (FSpec.mk (.plain b) false).target? = some u) :
    renText tgt nname s data = if u = tgt then
      some (flagChars s ++ (sc.withWord (nname ++ cond.tail)).body) else none := by
  obtain rfl := found_eq h
  obtain ⟨flags, nillable, outer, nestedNillable, word⟩ := sc
  cases hcond with
  | type i | enum i =>
    obtain rfl : _ = u := Option.some.inj hu
    cases outer
    all_goals
      simp [renText, place, setNested, Outer.code, FSpec.target?, FSpec.any, Scan.body,
        Scan.withWord, Cond.tail]
  | member i name hplain =>
    obtain rfl : Target.enum i = u := Option.some.inj hu
    simp only at hplain
    subst hplain
    by_cases heq : Target.enum i = tgt
    · subst heq
      simp [renText, place, Outer.code, FSpec.target?, Scan.body, Scan.withWord, Cond.tail]
    · simp [renText, place, setNested, Outer.code, FSpec.target?, FSpec.any, heq]

end Found

section Words

/-- A word which is a name and nothing else. -/
structure FreeName (w : Text) : Prop where
  isName : isName w = true
  free : fieldMap w = none

/-- No builtin word has a `{` after another character. -/
theorem fieldMap_brace (h : isName w) (m : Text) : fieldMap (w ++ '{' :: m) = none := by
  rw [fieldMap, lookup_eq_none_iff]
  intro p hp
  have hwords : ∀ p ∈ fieldMapping, '{' ∈ p.1 → p.1.head? = some '{' := by decide
  have hnot : '{' ∉ w := not_mem_of_isName h rfl
  simp only [bne_iff_ne, ne_eq]
  intro heq
  have hhead := hwords p hp (heq ▸ by simp)
  rw [← heq] at hhead
  cases w with
  | nil => cases h
  | cons a w =>
    simp only [cons_append, head?_cons, Option.some.injEq] at hhead
    exact hnot (hhead ▸ mem_cons_self)

theorem initText_of_scan (h : scan s = .ok sc) (hword : sc.word ≠ []) :
    initText E x c s = initWord E x c s sc := by
  unfold initText
  rw [h]
  simp only
  split
  · next heq _ => exact absurd heq hword
  · rfl

theorem initWord_of_goodWord (h : GoodWord sc.word) (hfree : fieldMap sc.word = none) :
    initWord E x c s sc = if sc.word.getLast? = some '}' then initEnumDefault E c sc
      else if sc.word = x.name then initSelf x c s sc else initName E x c s sc := by
  obtain ⟨a, ha, -, -, -, hpattern⟩ := h.head
  obtain ⟨d, hd, -, hrange⟩ := h.last
  simp [initWord, hfree, ha, hd, hpattern, hrange]

theorem initWord_name (h : FreeName sc.word) :
    initWord E x c s sc =
      if sc.word = x.name then initSelf x c s sc else initName E x c s sc := by
  have hgood := goodWord_of_isName h.isName (Or.inl rfl)
  rw [append_nil] at hgood
  rw [initWord_of_goodWord hgood h.free, if_neg]
  intro hlast
  exact not_mem_of_isName h.isName rfl (mem_of_getLast? hlast)

theorem initWord_member {m : Text} (h : isName w) (hword : sc.word = w ++ '{' :: (m ++ ['}'])) :
    initWord E x c s sc = initEnumDefault E c sc := by
  have hgood := goodWord_of_isName h (Or.inr ⟨m, rfl⟩)
  rw [← hword] at hgood
  rw [initWord_of_goodWord hgood (hword ▸ fieldMap_brace h _), if_pos]
  rw [hword, ← cons_append, ← append_assoc]
  exact getLast?_concat

end Words

section Member

variable {ename m : Text} {en : EnumId}

/-- A word with a default member, in its parts. -/
theorem initEnumDefault_eq (hword : sc.word = ename ++ '{' :: (m ++ ['}'])) (hbrace : '{' ∉ ename)
    (hplain : sc.outer = .plain) (hm : m ≠ []) (hen : E.enumByName ename = some en)
    (hmember : E.hasMember en m) :
    (initEnumDefault E c sc).2 = found sc (.plain (.enumId en)) (.member en m) := by
  have htake : sc.word.takeWhile (· ≠ '{') = ename := by
    rw [hword, takeWhile_append_of_pos]
    · simp
    · intro a ha
      simp only [decide_eq_true_eq]
      rintro rfl
      exact hbrace ha
  have hdrop : (sc.word.drop (ename.length + 1)).dropLast = m := by
    rw [hword, drop_append]
    simp
  have hlt : ename.length < sc.word.length := by simp [hword]
  unfold initEnumDefault
  simp only [htake, hdrop, if_pos hlt, hen, hplain, if_neg hm, hmember, if_true]

theorem split_brace (h : (w.takeWhile (· ≠ '{')).length < w.length) :
    w = w.takeWhile (· ≠ '{') ++ '{' :: w.drop ((w.takeWhile (· ≠ '{')).length + 1) := by
  have hsplit := takeWhile_append_dropWhile (p := fun a : Char => a ≠ '{') (l := w)
  have hhead := head?_dropWhile_not (fun a : Char => a ≠ '{') w
  generalize w.takeWhile (fun a : Char => a ≠ '{') = t at h hsplit ⊢
  cases hd : w.dropWhile (fun a : Char => a ≠ '{') with
  | nil =>
    rw [hd, append_nil] at hsplit
    rw [hsplit] at h
    exact absurd h (lt_irrefl _)
  | cons a r =>
    rw [hd] at hsplit hhead
    obtain rfl : a = '{' := by simpa using hhead
    rw [← hsplit, drop_append]
    simp

theorem eq_of_last {t r : Text} (h : (t ++ '{' :: r).getLast? = some '}') :
    r = r.dropLast ++ ['}'] := by
  rcases eq_nil_or_concat r with rfl | ⟨m, a, rfl⟩
  · rw [getLast?_concat] at h
    cases h
  · rw [concat_eq_append, ← cons_append, ← append_assoc, getLast?_concat] at h
    cases h
    simp

theorem initEnumDefault_ok (h : (initEnumDefault E c sc).2 = .ok data)
    (hlast : sc.word.getLast? = some '}') : ∃ ename m en, sc.outer = .plain ∧
      sc.word = ename ++ '{' :: (m ++ ['}']) ∧ '{' ∉ ename ∧ m ≠ [] ∧
      E.enumByName ename = some en ∧ E.hasMember en m ∧
      found sc (.plain (.enumId en)) (.member en m) = .ok data := by
  unfold initEnumDefault at h
  simp only at h
  split at h
  · split at h
    · cases h
    · split at h
      · cases h
      · cases h
  · next en hen =>
    split_ifs at hen with hlt
    split at h
    · cases h
    · cases h
    · cases h
    · next hplain =>
      split_ifs at h with hm hmember
      · refine ⟨_, _, en, hplain, ?_, ?_, hm, hen, hmember, h⟩
        · rw [← eq_of_last (split_brace hlt ▸ hlast)]
          exact split_brace hlt
        · intro hmem
          have hall := all_takeWhile (p := fun a : Char => a ≠ '{') (l := sc.word)
          simpa using all_eq_true.mp hall _ hmem

end Member

section Cases

def wordIs (w s : Text) : Bool :=
  match scan s with
  | .ok sc => sc.word = w
  | .error _ => false

theorem wordIs_of_scan (h : scan s = .ok sc) : wordIs w s = decide (sc.word = w) := by
  rw [wordIs, h]

/-- A declaration without a name of a type or an enumerator. -/
structure Fixed (E : Env) (s : Text) (data : Leaf) : Prop where
  reads : ∀ E' x c, E'.pattern = E.pattern → E'.range = E.range →
    (initText E' x c s).2 = .ok data
  target : data.target? = none
  word : ∀ w, FreeName w → wordIs w s = false

theorem initText_eq (h : scan s = .ok sc) :
    (∃ outer, sc.word = [] ∧ sc.outer.code = some outer ∧ ∀ E x c,
      initText E x c s = (c, .ok ⟨⟨outer, sc.nillable⟩, .any, sc.flags, .none⟩)) ∨
    ∀ E x c, initText E x c s = initWord E x c s sc := by
  unfold initText
  rw [h]
  simp only
  cases hword : sc.word with
  | cons a w => exact Or.inr fun _ _ _ => rfl
  | nil =>
    cases ho : sc.outer.code with
    | none => exact Or.inr fun _ _ _ => rfl
    | some outer => exact Or.inl ⟨outer, rfl, rfl, fun _ _ _ => rfl⟩

theorem FreeName.ne_nil (h : FreeName w) : w ≠ [] := by
  rintro rfl
  cases h.isName

section

variable (hscan : scan s = .ok sc) (hall : ∀ E x c, initText E x c s = initWord E x c s sc)

include hscan hall

theorem fixed_of_initWord
    (hreads : ∀ E' x c, E'.pattern = E.pattern → E'.range = E.range →
      (initWord E' x c s sc).2 = .ok data)
    (htarget : data.target? = none) (hword : ¬FreeName sc.word) : Fixed E s data := by
  constructor
  case reads => exact fun E' x c hpattern hrange => hall E' x c ▸ hreads E' x c hpattern hrange
  case target => exact htarget
  case word =>
    intro w hw
    rw [wordIs_of_scan hscan]
    exact decide_eq_false fun heq => hword (heq ▸ hw)

/-- A condition is not a name. -/
theorem fixed_of_cond {r : Env → Except Ex (CondSpec × Info)}
    (hr : ∀ E x c, initWord E x c s sc = (c, initCond sc (r E)))
    (hlang : ∀ E', E'.pattern = E.pattern → E'.range = E.range → r E' = r E)
    (h : (initWord E x c s sc).2 = .ok data) (hword : ¬FreeName sc.word) : Fixed E s data := by
  rw [hr] at h
  refine fixed_of_initWord hscan hall (fun E' x' c' hpattern hrange => ?_)
    (initCond_spec h).2 hword
  rw [hr, hlang E' hpattern hrange]
  exact h

end

/-- The name of a declaration, if it has one. -/
theorem initText_cases (h : (initText E x c s).2 = .ok data) : Fixed E s data ∨
    ∃ sc, scan s = .ok sc ∧
      (sc.word.getLast? = some '}' ∧ (initEnumDefault E c sc).2 = .ok data ∨
       sc.word = x.name ∧ (initSelf x c s sc).2 = .ok data ∨
       sc.word ≠ x.name ∧ (initName E x c s sc).2 = .ok data) := by
  cases hscan : scan s with
  | error e => simp [initText, hscan] at h
  | ok sc =>
    rcases initText_eq hscan with ⟨outer, hword, hcode, hall⟩ | hall
    · left
      rw [hall] at h
      cases h
      constructor
      case reads => exact fun E' x c _ _ => by rw [hall]
      case target =>
        cases ho : sc.outer <;> rw [ho] at hcode <;> cases hcode <;> rfl
      case word =>
        intro w hw
        rw [wordIs_of_scan hscan, hword]
        exact decide_eq_false fun heq => hw.ne_nil heq.symm
    · rw [hall] at h
      by_cases hpattern : sc.outer = .plain ∧ sc.word.head? = some '/'
      · left
        refine fixed_of_cond (r := fun E => E.pattern sc.word sc.nillable) hscan hall
          (fun E x c => if_pos hpattern) (fun E' hp _ => by rw [hp]) h ?_
        exact fun hfree => not_mem_of_isName hfree.isName rfl (List.mem_of_head? hpattern.2)
      · by_cases hrange : sc.outer = .plain ∧ sc.word.getLast? = some '>'
        · left
          refine fixed_of_cond (r := fun E => E.range sc.word sc.nillable) hscan hall
            (fun E x c => (if_neg hpattern).trans (if_pos hrange)) (fun E' _ hr => by rw [hr]) h ?_
          exact fun hfree => not_mem_of_isName hfree.isName rfl (mem_of_getLast? hrange.2)
        · cases hmap : fieldMap sc.word with
          | some b =>
            left
            have hfound : ∀ E x c, initWord E x c s sc = (c, found sc (.plain b) .none) :=
              fun E x c => by simp only [initWord, hpattern, hrange, hmap, if_false]
            rw [hfound] at h
            refine fixed_of_initWord hscan hall (fun E' x c _ _ => by rw [hfound]; exact h) ?_ ?_
            · rw [target?_found h]
              exact fieldMap_code hmap
            · intro hfree
              rw [hfree.free] at hmap
              cases hmap
          | none =>
            right
            refine ⟨sc, rfl, ?_⟩
            simp only [initWord, hpattern, hrange, hmap, if_false] at h
            split_ifs at h with hlast hself
            · exact Or.inl ⟨hlast, h⟩
            · exact Or.inr (Or.inl ⟨hself, h⟩)
            · exact Or.inr (Or.inr ⟨hself, h⟩)

end Cases

def Env.ren (E : Env) (old nname : Text) : Env :=
  { E with
    typeByName := fun w => E.typeByName (Equiv.swap old nname w)
    enumByName := fun w => E.enumByName (Equiv.swap old nname w) }

def Ctx.ren (x : Ctx) (old nname : Text) : Ctx := { x with name := Equiv.swap old nname x.name }

def Env.Knows (E : Env) (w : Text) : Prop :=
  E.typeByName w ≠ none ∨ E.enumByName w ≠ none

/-- The rename of `tgt`, which has the name `old`, to a name which is not used. -/
structure Renames (E : Env) (tgt : Target) (old nname : Text) : Prop where
  new : FreeName nname
  fresh : ¬E.Knows nname
  names : ∀ w, E.Knows w → FreeName w
  type : ∀ w i, E.typeByName w = some i → (w = old ↔ tgt = .type i)
  enum : ∀ w i, E.enumByName w = some i → (w = old ↔ tgt = .enum i)
  known : ∀ i, tgt = .type i → E.typeByName old = some i

/-- The fields of the type `own` and of the nested structures in it. -/
structure Ctx.On (x : Ctx) (E : Env) (own : TypeId) : Prop where
  name : E.typeByName x.name = some own
  self : x.self = some own ∨ x.self = none ∧ x.wrapOnly = true

/-- In a nested structure, the name of the type itself is stored as the one of the first
type. It is not found if the type is renamed, and is a dependency if the first type is. -/
def Broken (E : Env) (own : TypeId) (tgt : Target) (x : Ctx) (s : Text) (data : Leaf) : Prop :=
  x.self = none ∧ wordIs x.name s = true ∧ own ≠ 0 ∧ (tgt = .type own ∨
    tgt = .type 0 ∧ data.spec = .zero ∧ E.depCheck none 0 ≠ some false)

def Rereads {α : Type} (same : α → Prop) (broken : Prop) : Except DeclError α → Prop
  | .ok a => same a ∧ ¬broken
  | .error _ => broken

theorem rereads_of_eq {α : Type} {same : α → Prop} {broken : Prop} {r : Except DeclError α} {a : α}
    (h : r = .ok a) (hsame : same a) (hnot : ¬broken) : Rereads same broken r := by
  rw [h]
  exact ⟨hsame, hnot⟩

section Lookup

variable (E : Env)

theorem Env.ren_type_swap :
    (E.ren old nname).typeByName (Equiv.swap old nname w) = E.typeByName w :=
  congrArg E.typeByName (Equiv.swap_apply_self old nname w)

theorem Env.ren_enum_swap :
    (E.ren old nname).enumByName (Equiv.swap old nname w) = E.enumByName w :=
  congrArg E.enumByName (Equiv.swap_apply_self old nname w)

variable {E}

section

variable (h : Renames E tgt old nname) (hw : E.Knows w)

include h hw

theorem Renames.ne_of_knows : w ≠ nname := by
  rintro rfl
  exact h.fresh hw

/-- The name of `tgt` changes, and no other one. -/
theorem Renames.swap_eq : Equiv.swap old nname w = if w = old then nname else w := by
  rw [Equiv.swap_apply_def, if_neg (h.ne_of_knows hw)]

theorem Renames.free_swap : FreeName (Equiv.swap old nname w) := by
  rw [h.swap_eq hw]
  split_ifs
  · exact h.new
  · exact h.names w hw

end

end Lookup

section Name

theorem depErr_eq_none {dep : TypeId} : depErr E x s sc dep = none ↔
    (sc.isDirect → E.depCheck x.self dep = some false ∧
      (x.wrapOnly ∨ E.wrapOnly dep = false)) := by
  unfold depErr
  by_cases hd : sc.isDirect = true
  · rw [if_pos hd]
    split
    · next hcheck => simp [hd, hcheck]
    · next hcheck => simp [hd, hcheck]
    · next hcheck =>
      cases x.wrapOnly <;> simp [hd, hcheck]
  · simp [hd]

theorem depErr_ren {dep : TypeId} (h : depErr E x s sc dep = none) (s' w : Text) :
    depErr (E.ren old nname) (x.ren old nname) s' (sc.withWord w) dep = none :=
  depErr_eq_none.mpr (depErr_eq_none.mp h)

theorem initName_ren (h : (initName E x c s sc).2 = .ok data) (c' : Counts) (s' : Text) :
    (initName (E.ren old nname) (x.ren old nname) c' s'
      (sc.withWord (Equiv.swap old nname sc.word))).2 = .ok data := by
  obtain ⟨e, heq, -⟩ | ⟨dep, htype, hdep, heq⟩ | ⟨en, htype, henum, hset, heq⟩ :=
    initName_cases E x c s sc
  all_goals rw [heq] at h
  · cases h
  · rw [initName, word_withWord, Env.ren_type_swap, htype]
    simp only [depErr_ren hdep]
    exact found_word h _
  · rw [initName, word_withWord, Env.ren_type_swap, Env.ren_enum_swap, htype, henum]
    have hset' : ¬(sc.withWord (Equiv.swap old nname sc.word)).outer = .set := hset
    simp only [if_neg hset']
    exact found_word h _

theorem initName_ok (h : (initName E x c s sc).2 = .ok data) : E.Knows sc.word ∧ ∃ b u,
    found sc (.plain b) .none = .ok data ∧ NameCond sc b .none ∧
    (FSpec.mk (.plain b) false).target? = some u ∧
    ((∃ i, u = .type i ∧ E.typeByName sc.word = some i) ∨
     ∃ i, u = .enum i ∧ E.enumByName sc.word = some i) := by
  obtain ⟨e, heq, -⟩ | ⟨dep, htype, -, heq⟩ | ⟨en, -, henum, -, heq⟩ := initName_cases E x c s sc
  all_goals rw [heq] at h
  · cases h
  · exact ⟨Or.inl (by simp [htype]), .typeId dep, .type dep, h, .type dep, rfl,
      Or.inl ⟨dep, rfl, htype⟩⟩
  · exact ⟨Or.inr (by simp [henum]), .enumId en, .enum en, h, .enum en, rfl,
      Or.inr ⟨en, rfl, henum⟩⟩

theorem scan_renamed {tail : Text} (hw : isName w) (htail : NameTail tail) (hs : scan s = .ok sc) :
    scan (flagChars s ++ (sc.withWord (w ++ tail)).body) = .ok (sc.withWord (w ++ tail)) := by
  have hnested : sc.outer = .plain → sc.nestedNillable = false := scan_plain hs
  refine scan_body ?_ ?_ hs rfl
  · exact goodWord_of_isName hw htail
  · exact hnested

/-- The text with the new name, if the specification is the one of the name. -/
theorem scan_renText {b : Base} (hR : Renames E tgt old nname) (hs : scan s = .ok sc)
    (hfound : found sc (.plain b) .none = .ok data) (hcond : NameCond sc b .none)
    (hu : (FSpec.mk (.plain b) false).target? = some u) (hw : E.Knows sc.word)
    (hiff : sc.word = old ↔ tgt = u) :
    scan ((renText tgt nname s data).getD s) =
      .ok (sc.withWord (Equiv.swap old nname sc.word)) := by
  rw [renText_found hfound hcond hu, hR.swap_eq hw]
  by_cases htgt : u = tgt
  · rw [if_pos htgt, if_pos (hiff.mpr htgt.symm)]
    have hscan := scan_renamed hR.new.isName (nameTail_tail .none) hs
    simpa [Cond.tail] using hscan
  · rw [if_neg htgt, if_neg (fun heq => htgt (hiff.mp heq).symm)]
    exact hs

end Name

section Leaf

variable {own : TypeId}

theorem Ctx.On.knows (h : x.On E own) : E.Knows x.name := Or.inl (by simp [h.name])

theorem not_broken_of_word (hs : scan s = .ok sc) (hw : sc.word ≠ x.name) :
    ¬Broken E own tgt x s data := by
  rintro ⟨-, hword, -⟩
  rw [wordIs_of_scan hs] at hword
  exact hw (of_decide_eq_true hword)

section

variable (hR : Renames E tgt old nname)

include hR

theorem reread_fixed (hx : x.On E own) (h : Fixed E s data)
    (c' : Counts) : Rereads (· = data) (Broken E own tgt x s data)
      (initText (E.ren old nname) (x.ren old nname) c' ((renText tgt nname s data).getD s)).2 := by
  have htarget := h.target
  rw [Leaf.target?, Option.or_eq_none_iff] at htarget
  have hren : renText tgt nname s data = none := by simp [renText, htarget]
  rw [hren, Option.getD_none]
  refine rereads_of_eq (h.reads _ _ _ rfl rfl) rfl ?_
  rintro ⟨-, hword, -⟩
  rw [h.word _ (hR.names _ hx.knows)] at hword
  cases hword

theorem reread_member (hx : x.On E own) (hs : scan s = .ok sc)
    (hlast : sc.word.getLast? = some '}') (h : (initEnumDefault E c sc).2 = .ok data)
    (c' : Counts) : Rereads (· = data) (Broken E own tgt x s data)
      (initText (E.ren old nname) (x.ren old nname) c' ((renText tgt nname s data).getD s)).2 := by
  obtain ⟨ename, m, en, hplain, hword, hbrace, hm, hen, hmember, hfound⟩ :=
    initEnumDefault_ok h hlast
  have hknown : E.Knows ename := Or.inr (by simp [hen])
  have hname := hR.free_swap hknown
  set w' := Equiv.swap old nname ename with hw'
  have htext : scan ((renText tgt nname s data).getD s) =
      .ok (sc.withWord (w' ++ '{' :: (m ++ ['}']))) := by
    rw [renText_found hfound (.member en m hplain) rfl, hw', hR.swap_eq hknown]
    by_cases htgt : Target.enum en = tgt
    · rw [if_pos htgt, if_pos ((hR.enum _ _ hen).mpr htgt.symm)]
      exact scan_renamed hR.new.isName (nameTail_tail (.member en m)) hs
    · rw [if_neg htgt, if_neg (fun heq => htgt ((hR.enum _ _ hen).mp heq).symm), ← hword]
      exact hs
  have hread : (initEnumDefault (E.ren old nname) c' (sc.withWord (w' ++ '{' :: (m ++ ['}'])))).2
      = .ok data := by
    have hplain' : (sc.withWord (w' ++ '{' :: (m ++ ['}']))).outer = .plain := hplain
    rw [initEnumDefault_eq (word_withWord _) (not_mem_of_isName hname.isName rfl) hplain' hm
      ((E.ren_enum_swap).trans hen) hmember]
    exact found_word hfound _
  refine rereads_of_eq ?_ rfl (not_broken_of_word hs ?_)
  · rw [initText_of_scan htext (by simp), initWord_member hname.isName rfl]
    exact hread
  · rw [hword]
    intro heq
    exact not_mem_of_isName (hR.names _ hx.knows).isName rfl (heq ▸ by simp : '{' ∈ x.name)

theorem reread_name (hs : scan s = .ok sc)
    (hne : sc.word ≠ x.name) (h : (initName E x c s sc).2 = .ok data)
    (c' : Counts) : Rereads (· = data) (Broken E own tgt x s data)
      (initText (E.ren old nname) (x.ren old nname) c' ((renText tgt nname s data).getD s)).2 := by
  obtain ⟨hknown, b, u, hfound, hcond, hu, htarget⟩ := initName_ok h
  have hiff : sc.word = old ↔ tgt = u := by
    rcases htarget with ⟨i, rfl, hi⟩ | ⟨i, rfl, hi⟩
    · exact hR.type _ _ hi
    · exact hR.enum _ _ hi
  have htext := scan_renText hR hs hfound hcond hu hknown hiff
  have hname := hR.free_swap hknown
  have hother : (sc.withWord (Equiv.swap old nname sc.word)).word ≠ (x.ren old nname).name :=
    fun heq => hne ((Equiv.swap old nname).injective heq)
  refine rereads_of_eq ?_ rfl (not_broken_of_word hs hne)
  rw [initText_of_scan htext hname.ne_nil, initWord_name hname, if_neg hother]
  exact initName_ren h c' _

/-- The name of the type itself, if its specification is the one of the name. -/
theorem reread_self {i : TypeId} (hx : x.On E own)
    (hs : scan s = .ok sc) (hname : sc.word = x.name) (hiff : x.name = old ↔ tgt = .type i)
    (hfound : found sc (.plain (.typeId i)) .none = .ok data) :
    initText (E.ren old nname) (x.ren old nname) c' ((renText tgt nname s data).getD s) =
      initSelf (x.ren old nname) c' ((renText tgt nname s data).getD s)
        (sc.withWord (x.ren old nname).name) := by
  have hknown : E.Knows sc.word := hname ▸ hx.knows
  have htext := scan_renText hR hs hfound (.type i) rfl hknown (hname ▸ hiff)
  have hfree := hR.free_swap hknown
  rw [hname] at htext hfree
  have hown : (sc.withWord (x.ren old nname).name).word = (x.ren old nname).name := rfl
  rw [initText_of_scan htext hfree.ne_nil, initWord_name hfree]
  exact if_pos hown

end

theorem spec_eq_zero (h : found sc (.plain (.typeId 0)) .none = .ok data) :
    data.spec = .zero ↔ sc.isDirect := by
  rw [found_spec h]
  unfold place Scan.isDirect FSpec.zero
  cases sc.outer <;> simp [Outer.code]

theorem initSelf_ok (h : (initSelf x c s sc).2 = .ok data) :
    found sc (.plain (.typeId (x.self.getD 0))) .none = .ok data := by
  unfold initSelf at h
  cases hself : x.self with
  | none =>
    rw [hself] at h
    exact h
  | some i =>
    rw [hself] at h
    simp only at h
    split_ifs at h
    exact h

/-- The result for the name of the type itself is about the brackets and the counts only. -/
theorem initSelf_ren (h : (initSelf x c s sc).2 = .ok data) {c' : Counts}
    (hc : x.self ≠ none → c' = c) (s' w : Text) :
    (initSelf (x.ren old nname) c' s' (sc.withWord w)).2 = .ok data := by
  have hfound := found_word (initSelf_ok h) w
  unfold initSelf at h ⊢
  have hren : (x.ren old nname).self = x.self := rfl
  rw [hren]
  cases hself : x.self with
  | none =>
    rw [hself] at hfound
    exact hfound
  | some i =>
    obtain rfl := hc (by simp [hself])
    rw [hself] at h hfound
    simp only at h
    split_ifs at h with hdirect hmax
    have hdirect' : ¬((sc.withWord w).isDirect = true ∧ (!(x.ren old nname).wrapOnly) = true) :=
      hdirect
    simp only
    rw [if_neg hdirect', if_neg hmax]
    exact hfound

/-- The old name of the type, which is left in a nested structure. -/
theorem reread_left (hR : Renames E tgt old nname) (hx : x.On E own) (hs : scan s = .ok sc)
    (hname : sc.word = x.name) (hold : x.name = old) (c' : Counts) :
    ∃ e, (initText (E.ren old nname) (x.ren old nname) c' s).2 = .error e := by
  have hfree : FreeName sc.word := hname ▸ hR.names _ hx.knows
  have hother : sc.word ≠ (x.ren old nname).name := by
    rw [hname, Ctx.ren, hold, Equiv.swap_apply_left, ← hold]
    exact hR.ne_of_knows hx.knows
  have hfresh := hR.fresh
  simp only [Env.Knows, not_or, not_not] at hfresh
  have htype : (E.ren old nname).typeByName sc.word = none := by
    rw [hname, hold]
    exact (congrArg E.typeByName (Equiv.swap_apply_left old nname)).trans hfresh.1
  have henum : (E.ren old nname).enumByName sc.word = none := by
    rw [hname, hold]
    exact (congrArg E.enumByName (Equiv.swap_apply_left old nname)).trans hfresh.2
  rw [initText_of_scan hs hfree.ne_nil, initWord_name hfree, if_neg hother, initName]
  simp only [htype, henum]
  exact ⟨_, rfl⟩

/-- The name of the type, which is replaced by the new name of the first type. -/
theorem reread_first (hR : Renames E (.type 0) old nname) (hx : x.On E own) (hself : x.self = none)
    (hs : scan s = .ok sc) (hne : x.name ≠ old)
    (hfound : found sc (.plain (.typeId 0)) .none = .ok data) (c' : Counts) :
    Rereads (· = data) (data.spec = .zero ∧ E.depCheck none 0 ≠ some false)
      (initText (E.ren old nname) (x.ren old nname) c'
        ((renText (.type 0) nname s data).getD s)).2 := by
  have hmode : x.wrapOnly = true := by
    rcases hx.self with h | h
    · rw [hself] at h
      cases h
    · exact h.2
  have hren : renText (.type 0) nname s data =
      some (flagChars s ++ (sc.withWord (nname ++ Cond.none.tail)).body) :=
    (renText_found hfound (.type 0) rfl).trans (if_pos rfl)
  have htext := scan_renamed hR.new.isName (nameTail_tail .none) hs
  have hword : nname ++ Cond.none.tail = nname := append_nil nname
  rw [hword] at htext hren
  have hother : (sc.withWord nname).word ≠ (x.ren old nname).name := by
    have hsame : (x.ren old nname).name = x.name :=
      Equiv.swap_apply_of_ne_of_ne hne (hR.ne_of_knows hx.knows)
    rw [hsame]
    exact (hR.ne_of_knows hx.knows).symm
  have htype : (E.ren old nname).typeByName (sc.withWord nname).word = some 0 :=
    (congrArg E.typeByName (Equiv.swap_apply_right old nname)).trans (hR.known 0 rfl)
  rw [hren, Option.getD_some, initText_of_scan htext hR.new.ne_nil, initWord_name hR.new,
    if_neg hother, initName]
  simp only [htype]
  rw [spec_eq_zero hfound]
  have hdep : depErr (E.ren old nname) (x.ren old nname) (flagChars s ++ (sc.withWord nname).body)
      (sc.withWord nname) 0 = none ↔ ¬(sc.isDirect = true ∧ E.depCheck none 0 ≠ some false) := by
    have hself' : (x.ren old nname).self = none := hself
    have hmode' : (x.ren old nname).wrapOnly = true := hmode
    rw [depErr_eq_none, hself', hmode', not_and, not_not]
    exact ⟨fun h hdirect => (h hdirect).1, fun h hdirect => ⟨h hdirect, Or.inl rfl⟩⟩
  generalize depErr (E.ren old nname) (x.ren old nname) (flagChars s ++ (sc.withWord nname).body)
    (sc.withWord nname) 0 = err at hdep ⊢
  cases err with
  | none => exact rereads_of_eq (found_word hfound nname) rfl (hdep.mp rfl)
  | some e => exact by_contra fun hnot => Option.some_ne_none e (hdep.mpr hnot)

section

variable (hR : Renames E tgt old nname) (hx : x.On E own) (h : (initText E x c s).2 = .ok data)

include hR hx h

/-- A text is read as before the rename, or it is broken. -/
theorem reread_text {c' : Counts} (hc : x.self ≠ none → c' = c) :
    Rereads (· = data) (Broken E own tgt x s data)
      (initText (E.ren old nname) (x.ren old nname) c' ((renText tgt nname s data).getD s)).2 := by
  have hown := hR.type _ _ hx.name
  rcases initText_cases h with hfixed | ⟨sc, hs, ⟨hlast, hread⟩ | ⟨hname, hread⟩ | ⟨hne, hread⟩⟩
  · exact reread_fixed hR hx hfixed c'
  · exact reread_member hR hx hs hlast hread c'
  · have hfound := initSelf_ok hread
    have hword : wordIs x.name s = true := by
      rw [wordIs_of_scan hs]
      exact decide_eq_true hname
    by_cases hiff : x.name = old ↔ tgt = .type (x.self.getD 0)
    · refine rereads_of_eq ?_ rfl ?_
      · rw [reread_self hR hx hs hname hiff hfound]
        exact initSelf_ren hread hc _ _
      · rintro ⟨hself, -, hfirst, hbroken⟩
        rw [hself, Option.getD_none, hown] at hiff
        rcases hbroken with htgt | ⟨htgt, -⟩
        · cases htgt.symm.trans (hiff.mp htgt)
          exact hfirst rfl
        · cases htgt.symm.trans (hiff.mpr htgt)
          exact hfirst rfl
    · -- the specification is the one of the first type, which the name is not
      have hself : x.self = none := by
        rcases hx.self with hself | hself
        · rw [hself, Option.getD_some] at hiff
          exact absurd hown hiff
        · exact hself.1
      rw [hself, Option.getD_none] at hiff hfound
      by_cases hold : x.name = old
      · have htgt : tgt ≠ .type 0 := fun heq => hiff ⟨fun _ => heq, fun _ => hold⟩
        have hfirst : own ≠ 0 := fun heq => htgt (heq ▸ hown.mp hold)
        have hren : renText tgt nname s data = none := by
          rw [renText_found hfound (.type 0) rfl, if_neg htgt.symm]
        obtain ⟨e, he⟩ := reread_left hR hx hs hname hold c'
        rw [hren, Option.getD_none, he]
        exact ⟨hself, hword, hfirst, Or.inl (hown.mp hold)⟩
      · obtain rfl : tgt = .type 0 := by
          by_contra htgt
          exact hiff ⟨fun heq => absurd heq hold, fun heq => absurd heq htgt⟩
        have hfirst : own ≠ 0 := fun heq => hold (hown.mpr (heq ▸ rfl))
        have hbroken : Broken E own (.type 0) x s data ↔
            data.spec = .zero ∧ E.depCheck none 0 ≠ some false := by
          simp [Broken, hself, hword, hfirst, hfirst.symm]
        rw [hbroken]
        exact reread_first hR hx hself hs hold hfound c'
  · exact reread_name hR hs hne hread c'

/-- A text which is replaced has a word which starts with a name, and so has the new one. -/
theorem renText_some {t : Text} (ht : renText tgt nname s data = some t) :
    ∃ sc w rest tail, scan s = .ok sc ∧ isName w ∧ sc.word = w ++ rest ∧
      t = flagChars s ++ (sc.withWord (nname ++ tail)).body := by
  have hsome : ∀ {sc b cond u}, found sc (.plain b) cond = .ok data → NameCond sc b cond →
      (FSpec.mk (.plain b) false).target? = some u →
      t = flagChars s ++ (sc.withWord (nname ++ cond.tail)).body := by
    intro sc b cond u hfound hcond hu
    rw [renText_found hfound hcond hu] at ht
    split_ifs at ht
    exact (Option.some.inj ht).symm
  rcases initText_cases h with hfixed | ⟨sc, hs, ⟨hlast, hread⟩ | ⟨hname, hread⟩ | ⟨hne, hread⟩⟩
  · have htarget := hfixed.target
    rw [Leaf.target?, Option.or_eq_none_iff] at htarget
    simp [renText, htarget] at ht
  · obtain ⟨ename, m, en, hplain, hword, -, -, hen, -, hfound⟩ := initEnumDefault_ok hread hlast
    have hfree := hR.names ename (Or.inr (by simp [hen]))
    exact ⟨sc, ename, _, _, hs, hfree.isName, hword, hsome hfound (.member en m hplain) rfl⟩
  · have hfree := hR.names _ hx.knows
    exact ⟨sc, x.name, [], _, hs, hfree.isName, by simp [hname],
      hsome (initSelf_ok hread) (.type _) rfl⟩
  · obtain ⟨hknown, b, u, hfound, hcond, hu, -⟩ := initName_ok hread
    exact ⟨sc, sc.word, [], _, hs, (hR.names _ hknown).isName, by simp, hsome hfound hcond hu⟩

end

end Leaf

section Heads

theorem head_of_isName (h : isName w) (rest : Text) :
    ∃ a, (w ++ rest).head? = some a ∧ (a.isAlphanum || a = '_') = true := by
  cases w with
  | nil => cases h
  | cons a w => exact ⟨a, rfl, isName_chars h a mem_cons_self⟩

theorem mem_of_head_text {tail : Text} {a : Char} (h : isName w)
    (ha : (flagChars s ++ (sc.withWord (w ++ tail)).body).head? = some a) :
    isFlagChar a ∨ (a.isAlphanum || a = '_') = true ∨ a = '[' ∨ a = '{' := by
  cases hf : flagChars s with
  | cons b fs =>
    rw [hf] at ha
    cases ha
    left
    have hall := all_takeWhile (p := isFlagChar) (l := s)
    exact all_eq_true.mp hall a (by rw [← flagChars, hf]; exact mem_cons_self)
  | nil =>
    right
    rw [hf, nil_append] at ha
    obtain ⟨b, hb, hchar⟩ := head_of_isName h (tail ++ optNil sc.nillable)
    unfold Scan.body at ha
    cases ho : sc.outer with
    | plain =>
      left
      simp only [outer_withWord, ho, word_withWord, append_assoc] at ha
      cases hb.symm.trans ha
      exact hchar
    | arr =>
      simp only [outer_withWord, ho] at ha
      cases ha
      simp
    | set =>
      simp only [outer_withWord, ho] at ha
      cases ha
      simp
    | restricted =>
      simp only [outer_withWord, ho, thingOpen] at ha
      cases ha
      left
      rfl

/-- A text which starts with `#` has a word which does so. -/
theorem scan_hash (h : scan s = .ok sc) (hhash : s.head? = some '#') :
    sc.word.head? = some '#' := by
  have hread : readFlags [] s = .ok ([], s) := by
    cases s with
    | nil => cases hhash
    | cons a s =>
      cases hhash
      rfl
  have hsplit : ∀ {nillable t}, splitNillable s = some (nillable, t) → t.head? = some '#' := by
    intro nillable t ht
    unfold splitNillable at ht
    split_ifs at ht with hnil hne
    · cases ht
      cases s with
      | nil => cases hhash
      | cons a s =>
        cases s with
        | nil => exact absurd rfl hne
        | cons b s =>
          cases hhash
          rfl
    · cases ht
      exact hhash
  have houter : ∀ {t}, t.head? = some '#' → splitOuter t = some (.plain, t) := by
    intro t ht
    have hthing : ¬thingOpen <+: t := by
      rintro ⟨z, rfl⟩
      cases ht
    simp [splitOuter, ht, hthing]
  unfold scan at h
  rw [hread] at h
  split_ifs at h
  · simp only [not_mem_nil, false_and, if_false] at h
    split at h
    · cases h
    · next t ht =>
      rw [houter (hsplit ht)] at h
      cases h
      exact hsplit ht

end Heads

end ThingsDB.Types
