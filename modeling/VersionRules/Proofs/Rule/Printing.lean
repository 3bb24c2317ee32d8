import VersionRules.Proofs.Except
import VersionRules.Proofs.Rule.Infix
import VersionRules.Proofs.Token.Names
import VersionRules.Proofs.Token.Types
import VersionRules.Rule.Ranking

/-!
# What a printed tree stands for

Values are printed without quotes, and their words with the same spaces between them as operands. A
printed tree stands for one tree all the same: behind a value there is nothing, or the closing
parenthesis of the node above, or the next operand. The latter begins with a parenthesis, which no
value contains, or with the name of a qualifier and a colon, which no value contains either. So a
value goes on up to the next parenthesis or the name before the next colon. An order, which might be
part of a value, is always the last operand of `SORT_BY`.

Trees that are printed alike are the same up to the places of their tokens, and stand for the same
conditions and preferences.

## Main definitions

* `Tree.Alike` — trees that are the same up to the places of their tokens
* `Tree.IsAdmitted` — the trees of conditions with values that are admitted
* `Follows` — what can stand behind an operand in a printed tree
* `SameOutcome` — outcomes that are the same up to the place of an error

## Main results

* `Tree.IsAdmitted.text_append_inj` — an operand, and where it ends, can be read off a printed tree
* `Tree.Alike.condition`, `Tree.Alike.preference` — trees that are alike mean the same
* `text_eq_iff_alike` — printed trees are the same exactly if the trees are alike
-/

namespace VersionRules

open Text

/-- Two trees are the same up to the places of their tokens. -/
inductive Tree.Alike : Tree → Tree → Prop
  | missing : Alike .missing .missing
  | root {x y : Tree} (hchild : Alike x y) : Alike (.root x) (.root y)
  | group {t u : Token} {x y : Tree} (hkind : t.kind = u.kind) (hchild : Alike x y) :
      Alike (.group t x) (.group u y)
  | binary {t u : Token} {left right left' right' : Tree} (hkind : t.kind = u.kind)
      (hleft : Alike left left') (hright : Alike right right') :
      Alike (.binary t left right) (.binary u left' right')
  | leaf {t u : Token} (hkind : t.kind = u.kind) : Alike (.leaf t) (.leaf u)

/-- The trees of terms with admitted values and of operators that join them. -/
inductive Tree.IsAdmitted : Tree → Prop
  | leaf {t : Token} {q : Qualifier} {words : List String} (ht : t.kind = .qualifier q words)
      (hwords : q.validate words = .ok ()) : IsAdmitted (.leaf t)
  | binary {op : Token} {left right : Tree} (hop : op.Joins) (hleft : left.IsAdmitted)
      (hright : right.IsAdmitted) : IsAdmitted (.binary op left right)

/-- What can stand behind an operand in a printed tree: nothing, the closing parenthesis of the node
above, or the next operand. -/
def Follows (cs : List Char) : Prop :=
  cs = [] ∨ (∃ ds, cs = ')' :: ds) ∨
    ∃ (x : Tree) (ds : List Char), x.IsAdmitted ∧ cs = ' ' :: (x.text.toList ++ ds)

/-- An error without its place: what is wrong, and with what kind of token. -/
def RuleError.unplaced (e : RuleError) : RuleError.Cause × Option TokenKind :=
  (e.cause, e.place.token?.map Token.kind)

/-- Two outcomes are the same up to the place of an error. -/
def SameOutcome {α : Type} (x y : Except RuleError α) : Prop :=
  x.mapError RuleError.unplaced = y.mapError RuleError.unplaced

variable {x y left right : Tree} {t u op : Token} {q : Qualifier} {words : List String}
  {cs ds r s w : List Char} {c : Char}

/-! ### Values -/

/-- A text as values are printed: without marks, and without a space at its end. -/
structure IsValueText (cs : List Char) : Prop where
  isPlain : ∀ c ∈ cs, c ≠ ' ' → isPlain c
  getLast?_ne : cs.getLast? ≠ some ' '

theorem IsValueText.of_append (h : IsValueText (cs ++ w)) : IsValueText w := by
  refine ⟨fun c hc => h.isPlain c (List.mem_append_right cs hc), fun hlast => h.getLast?_ne ?_⟩
  rw [List.getLast?_append, hlast, Option.some_or]

namespace Qualifier

/-- A printed value consists of plain words with single spaces between them. -/
theorem exists_plainWords (h : q.validate words = .ok ()) :
    ∃ runs, (" ".intercalate words).toList = [' '].intercalate runs ∧
      ∀ run ∈ runs, IsPlainWord run := by
  have hadmits := exists_admits_of_validate h
  rw [String.toList_intercalate]
  by_cases hq : q = groupVersion
  · -- A phrase is one word with spaces of its own.
    subst hq
    obtain ⟨word, rfl⟩ := List.length_eq_one_iff.1 (validate_eq_ok_iff.1 h).1
    obtain ⟨i, hword⟩ := hadmits word (List.mem_singleton_self word)
    obtain ⟨hjoin, hruns⟩ := isPlainWord_of_isPhrase hword
    exact ⟨word.toList.splitOn ' ', by simp [hjoin], hruns⟩
  · refine ⟨words.map String.toList, rfl, ?_⟩
    intro run hrun
    obtain ⟨word, hword, rfl⟩ := List.mem_map.1 hrun
    obtain ⟨i, hword⟩ := hadmits word hword
    exact isPlainWord_of_admits hword hq

theorem isValueText (h : q.validate words = .ok ()) :
    IsValueText (" ".intercalate words).toList := by
  obtain ⟨runs, hruns, hplain⟩ := exists_plainWords h
  rw [hruns]
  constructor
  · exact forall_mem_intercalate (p := fun c => c ≠ ' ' → isPlain c) (absurd rfl)
      fun run hrun c hc _ => (hplain run hrun).isPlain c hc
  · intro hlast
    cases isSpace_getLast?_intercalate (fun run hrun => (hplain run hrun).isSolid) ' ' hlast

/-- A value can be read off the way it is printed. -/
theorem intercalate_inj {words' : List String} (h : q.validate words = .ok ())
    (h' : q.validate words' = .ok ())
    (heq : (" ".intercalate words).toList = (" ".intercalate words').toList) : words = words' := by
  rw [← splitValue_intercalate h, ← splitValue_intercalate h', heq]

theorem notMem_name (hc : isPlain c = false) (q : Qualifier) : c ∉ q.name.toList :=
  fun hmem => by simp [q.isPlain_name c hmem] at hc

theorem name_inj {q' : Qualifier} (h : q.name.toList = q'.name.toList) : q = q' := by
  revert h
  cases q <;> cases q' <;> decide

end Qualifier

/-! ### Operands -/

/-- Texts that are followed by the same character and do not contain it are the same if the whole
is. -/
theorem append_cons_inj (hcs : c ∉ cs) (hds : c ∉ ds) (h : cs ++ c :: r = ds ++ c :: s) :
    cs = ds ∧ r = s := by
  induction cs generalizing ds with
  | nil =>
    cases ds with
    | nil => exact ⟨rfl, (List.cons.inj h).2⟩
    | cons d ds => exact absurd (List.cons.inj h).1 (List.ne_of_not_mem_cons hds)
  | cons b cs ih =>
    cases ds with
    | nil => exact absurd (List.cons.inj h).1.symm (List.ne_of_not_mem_cons hcs)
    | cons d ds =>
      obtain ⟨rfl, htail⟩ := List.cons.inj h
      obtain ⟨rfl, hrest⟩ := ih (fun hc => hcs (List.mem_cons_of_mem b hc))
        (fun hc => hds (List.mem_cons_of_mem b hc)) htail
      exact ⟨rfl, hrest⟩

namespace Tree

theorem toList_text_leaf (ht : t.kind = .qualifier q words) :
    (leaf t).text.toList = q.name.toList ++ ':' :: (" ".intercalate words).toList := by
  simp [text, Token.text, TokenKind.text, ht]

theorem toList_text_binary (hleft : left.isMissing = false) (hright : right.isMissing = false) :
    (binary op left right).text.toList =
      '(' :: (op.text.toList ++
        ' ' :: (left.text.toList ++ ' ' :: (right.text.toList ++ [')']))) := by
  simp [text, operandText, hleft, hright]

namespace IsAdmitted

theorem isMissing_eq_false (h : x.IsAdmitted) : x.isMissing = false := by
  cases h <;> rfl

/-- A printed condition begins with a parenthesis or with a name and a colon. -/
theorem text_cases (h : x.IsAdmitted) :
    (∃ cs, x.text.toList = '(' :: cs) ∨
      ∃ (q : Qualifier) (cs : List Char), x.text.toList = q.name.toList ++ ':' :: cs := by
  cases h with
  | leaf ht _ => exact .inr ⟨_, _, toList_text_leaf ht⟩
  | binary _ hleft hright =>
    exact .inl ⟨_, toList_text_binary hleft.isMissing_eq_false hright.isMissing_eq_false⟩

end IsAdmitted

end Tree

/-- What follows an operand begins with a closing parenthesis or with a space. -/
theorem Follows.head (h : Follows (c :: cs)) : c = ')' ∨ c = ' ' := by
  rcases h with h | ⟨ds, h⟩ | ⟨x, ds, -, h⟩
  · cases h
  · exact .inl (List.cons.inj h).1
  · exact .inr (List.cons.inj h).1

/-- What follows an operand does not begin with more of a value, behind which it would go on. -/
theorem Follows.eq_nil (h : Follows (w ++ r)) (hr : Follows r) (hw : IsValueText w) : w = [] := by
  obtain ⟨hw, hlast⟩ := hw
  cases w with
  | nil => rfl
  | cons c w =>
    have hcolon : ':' ∉ c :: w := fun hmem => by cases hw ':' hmem (by decide)
    rcases h with h | ⟨ds, h⟩ | ⟨x, ds, hx, h⟩
    · cases h
    · obtain ⟨rfl, -⟩ := List.cons.inj h
      cases hw ')' List.mem_cons_self (by decide)
    · -- The next operand would begin within the value.
      obtain ⟨rfl, htail⟩ := List.cons.inj h
      obtain ⟨d, w, rfl⟩ := List.exists_cons_of_ne_nil (show w ≠ [] by rintro rfl; exact hlast rfl)
      rcases hx.text_cases with ⟨cs, hcs⟩ | ⟨q, cs, hcs⟩
      · rw [hcs] at htail
        obtain ⟨rfl, -⟩ := List.cons.inj htail
        cases hw '(' (by simp) (by decide)
      · replace htail : d :: w ++ r = q.name.toList ++ ':' :: (cs ++ ds) := by
          rw [hcs] at htail
          simpa using htail
        have hrcolon : ∀ ds, r ≠ ':' :: ds := by
          rintro ds rfl
          rcases hr.head with h | h <;> cases h
        rcases List.append_eq_append_iff.1 htail with ⟨m, hm, hrest⟩ | ⟨m, hm, hrest⟩
        · -- The value ends within the name, which does not begin what follows an operand.
          cases m with
          | nil => exact absurd hrest (hrcolon _)
          | cons e m =>
            rw [hrest] at hr
            have he := q.isPlain_name e (by rw [hm]; simp)
            rcases hr.head with rfl | rfl <;> cases he
        · -- The value goes on behind the name, and there is a colon.
          cases m with
          | nil => exact absurd hrest.symm (hrcolon _)
          | cons e m =>
            obtain ⟨rfl, -⟩ := List.cons.inj hrest
            exact absurd (List.mem_cons_of_mem _ (hm ▸ by simp)) hcolon

/-- A printed value determines where it ends in a longer text. -/
theorem IsValueText.append_inj (hcs : IsValueText cs) (hds : IsValueText ds) (hr : Follows r)
    (hs : Follows s) (h : cs ++ r = ds ++ s) : cs = ds ∧ r = s := by
  rcases List.append_eq_append_iff.1 h with ⟨w, rfl, rfl⟩ | ⟨w, rfl, rfl⟩
  · obtain rfl := hr.eq_nil hs hds.of_append
    exact ⟨(List.append_nil cs).symm, rfl⟩
  · obtain rfl := hs.eq_nil hr hcs.of_append
    exact ⟨List.append_nil ds, rfl⟩

/-- Operators are told apart by what is printed for them. -/
theorem Token.Joins.kind_eq (ht : t.Joins) (hu : u.Joins) (h : t.text.toList = u.text.toList) :
    t.kind = u.kind := by
  revert h
  rw [Token.text, Token.text]
  rcases ht.kind_cases with ht | ht | ht <;> rcases hu.kind_cases with hu | hu | hu <;>
    rw [ht, hu] <;> decide

theorem Token.Joins.notMem_text (hop : op.Joins) : ' ' ∉ op.text.toList := by
  rw [Token.text]
  rcases hop.kind_cases with hop | hop | hop <;> rw [hop] <;> decide

/-- No name begins with a parenthesis. -/
theorem name_append_ne_paren (q : Qualifier) : q.name.toList ++ cs ≠ '(' :: ds := by
  cases q <;> exact fun h => by cases (List.cons.inj h).1

/-- A printed condition determines its tree and where it ends in a longer text. -/
theorem Tree.IsAdmitted.text_append_inj (hx : x.IsAdmitted) (hy : y.IsAdmitted) (hr : Follows r)
    (hs : Follows s) (h : x.text.toList ++ r = y.text.toList ++ s) : x.Alike y ∧ r = s := by
  induction hx generalizing y r s with
  | @leaf t q words ht hwords =>
    cases hy with
    | @leaf u q' words' hu hwords' =>
      rw [toList_text_leaf ht, toList_text_leaf hu, List.append_assoc, List.append_assoc] at h
      obtain ⟨hname, hrest⟩ := append_cons_inj (Qualifier.notMem_name rfl q)
        (Qualifier.notMem_name rfl q') h
      obtain rfl := Qualifier.name_inj hname
      obtain ⟨hvalue, rfl⟩ := (Qualifier.isValueText hwords).append_inj
        (Qualifier.isValueText hwords') hr hs hrest
      obtain rfl := Qualifier.intercalate_inj hwords hwords' hvalue
      exact ⟨.leaf (ht.trans hu.symm), rfl⟩
    | binary _ hleft' hright' =>
      rw [toList_text_leaf ht, toList_text_binary hleft'.isMissing_eq_false
        hright'.isMissing_eq_false, List.append_assoc] at h
      exact absurd h (name_append_ne_paren q)
  | @binary op left right hop hleft hright ihl ihr =>
    cases hy with
    | @leaf u q' words' hu hwords' =>
      rw [toList_text_leaf hu, toList_text_binary hleft.isMissing_eq_false
        hright.isMissing_eq_false, List.append_assoc] at h
      exact absurd h.symm (name_append_ne_paren q')
    | @binary op' left' right' hop' hleft' hright' =>
      rw [toList_text_binary hleft.isMissing_eq_false hright.isMissing_eq_false,
        toList_text_binary hleft'.isMissing_eq_false hright'.isMissing_eq_false] at h
      simp only [List.cons_append, List.append_assoc, List.cons.injEq, true_and,
        List.nil_append] at h
      obtain ⟨hops, hleft_eq⟩ := append_cons_inj hop.notMem_text hop'.notMem_text h
      obtain ⟨hl, hright_eq⟩ := ihl hleft' (.inr (.inr ⟨_, _, hright, rfl⟩))
        (.inr (.inr ⟨_, _, hright', rfl⟩)) hleft_eq
      obtain ⟨hr', hrest⟩ := ihr hright' (.inr (.inl ⟨_, rfl⟩)) (.inr (.inl ⟨_, rfl⟩))
        (List.cons.inj hright_eq).2
      exact ⟨.binary (hop.kind_eq hop' hops) hl hr', (List.cons.inj hrest).2⟩

/-! ### Rules -/

/-- The trees of rules, with admitted values. -/
inductive Tree.IsRule : Tree → Prop
  | missing : IsRule .missing
  | order {o : Token} (ho : o.kind = .order) : IsRule (.leaf o)
  | condition {x : Tree} (hx : x.IsAdmitted) : IsRule x
  | sorted {s o : Token} {x : Tree} (hs : s.kind = .sortBy) (hx : x.IsAdmitted)
      (ho : o.kind = .order) : IsRule (.binary s x (.leaf o))

/-- The values of all terms in a list are admitted. -/
def ValuesAdmitted (ts : List Token) : Prop :=
  ∀ t ∈ ts, ∀ q words, t.kind = .qualifier q words → q.validate words = .ok ()

theorem Derives.isAdmitted {k : Stratum} {ts : List Token} (h : Derives k ts x)
    (hts : ValuesAdmitted ts) : x.IsAdmitted := by
  induction h with
  | @term t ht =>
    obtain ⟨q, words, hkind⟩ := exists_qualifier_of_type ht
    exact .leaf hkind (hts t (List.mem_singleton_self t) q words hkind)
  | parens _ _ _ ih =>
    exact ih fun t ht => hts t (List.mem_cons_of_mem _ (List.mem_append_left _ ht))
  | atom _ ih | conj _ ih => exact ih hts
  | and _ hop _ ihl ihr =>
    exact .binary (joins_of_and hop) (ihl fun t ht => hts t (List.mem_append_left _ ht))
      (ihr fun t ht => hts t (List.mem_append_right _ (List.mem_cons_of_mem _ ht)))
  | or _ hop _ ihl ihr =>
    exact .binary (joins_of_or hop) (ihl fun t ht => hts t (List.mem_append_left _ ht))
      (ihr fun t ht => hts t (List.mem_append_right _ (List.mem_cons_of_mem _ ht)))

namespace Tree

theorem toList_text_order {o : Token} (ho : o.kind = .order) :
    (leaf o).text.toList = TokenKind.orderName.toList := by
  simp [text, Token.text, TokenKind.text, ho]

theorem toList_text_sorted {s o : Token} (hs : s.kind = .sortBy) (hx : x.IsAdmitted)
    (ho : o.kind = .order) : (binary s x (.leaf o)).text.toList =
      '(' :: (TokenKind.sortByName.toList ++ ' ' :: (x.text.toList ++
        ' ' :: (TokenKind.orderName.toList ++ [')']))) := by
  rw [toList_text_binary hx.isMissing_eq_false rfl, toList_text_order ho, Token.text, hs]
  rfl

/-- A printed condition is not what is printed for any other rule. -/
theorem IsAdmitted.text_ne (hx : x.IsAdmitted) : x.text.toList ≠ [] ∧
    x.text.toList ≠ TokenKind.orderName.toList ∧
      ∀ cs, x.text.toList ≠ '(' :: (TokenKind.sortByName.toList ++ ' ' :: cs) := by
  cases hx with
  | @leaf t q words ht _ =>
    rw [toList_text_leaf ht]
    refine ⟨by simp, fun h => ?_, fun cs => name_append_ne_paren q⟩
    have hcolon : ':' ∈ TokenKind.orderName.toList := h ▸ by simp
    revert hcolon
    decide
  | @binary op _ _ hop hleft hright =>
    rw [toList_text_binary hleft.isMissing_eq_false hright.isMissing_eq_false]
    refine ⟨nofun, nofun, ?_⟩
    intro cs h
    obtain ⟨hname, -⟩ := append_cons_inj hop.notMem_text (by decide) (List.cons.inj h).2
    rw [Token.text] at hname
    rcases hop.kind_cases with hop | hop | hop <;> rw [hop] at hname <;> revert hname <;> decide

/-- A printed rule determines its tree. -/
theorem IsRule.alike_of_text (hx : x.IsRule) (hy : y.IsRule)
    (h : x.text.toList = y.text.toList) : x.Alike y := by
  cases hx with
  | missing =>
    cases hy with
    | missing => exact .missing
    | order ho => exact absurd (h.trans (toList_text_order ho)) (by decide)
    | condition hy => exact absurd h.symm hy.text_ne.1
    | sorted hs hy ho => cases h.trans (toList_text_sorted hs hy ho)
  | order ho =>
    rw [toList_text_order ho] at h
    cases hy with
    | missing => exact absurd h (by decide)
    | order ho' => exact .leaf (ho.trans ho'.symm)
    | condition hy => exact absurd h.symm hy.text_ne.2.1
    | sorted hs hy ho' => cases h.trans (toList_text_sorted hs hy ho')
  | condition hx =>
    cases hy with
    | missing => exact absurd h hx.text_ne.1
    | order ho => exact absurd (h.trans (toList_text_order ho)) hx.text_ne.2.1
    | condition hy =>
      refine (hx.text_append_inj hy (.inl rfl) (.inl rfl) ?_).1
      rw [h]
    | sorted hs hy ho => exact absurd (h.trans (toList_text_sorted hs hy ho)) (hx.text_ne.2.2 _)
  | sorted hs hx ho =>
    rw [toList_text_sorted hs hx ho] at h
    cases hy with
    | missing => cases h
    | order ho' => cases h.trans (toList_text_order ho')
    | condition hy => exact absurd h.symm (hy.text_ne.2.2 _)
    | sorted hs' hy ho' =>
      -- What stands behind the condition is the same on both sides.
      rw [toList_text_sorted hs' hy ho'] at h
      have hcondition := List.append_cancel_right
        (List.cons.inj (List.append_cancel_left (List.cons.inj h).2)).2
      refine .binary (hs.trans hs'.symm) ?_ (.leaf (ho.trans ho'.symm))
      refine (hx.text_append_inj hy (.inl rfl) (.inl rfl) ?_).1
      rw [hcondition]

end Tree

/-! ### Trees that are alike -/

namespace SameOutcome

variable {α β : Type} {a b : Except RuleError α} {k l : α → Except RuleError β}

theorem atToken (cause : RuleError.Cause) (hkind : t.kind = u.kind) :
    SameOutcome (.error (.atToken cause t) : Except RuleError α) (.error (.atToken cause u)) :=
  congrArg (fun kind => Except.error (cause, some kind)) hkind

theorem bind (h : SameOutcome a b) (hkl : ∀ x, SameOutcome (k x) (l x)) :
    SameOutcome (a >>= k) (b >>= l) :=
  mapError_bind_congr h hkl

end SameOutcome

namespace Tree.Alike

theorem isMissing_eq (h : x.Alike y) : x.isMissing = y.isMissing := by
  cases h <;> rfl

/-- Places are not printed. -/
theorem text_eq (h : x.Alike y) : x.text = y.text := by
  induction h with
  | missing => rfl
  | root _ ih => exact ih
  | group _ hchild ih => rw [text, text, operandText, operandText, hchild.isMissing_eq, ih]
  | binary hkind hleft hright ihl ihr =>
    rw [text, text, operandText, operandText, operandText, operandText, hleft.isMissing_eq,
      hright.isMissing_eq, ihl, ihr, Token.text, Token.text, hkind]
  | leaf hkind => rw [text, text, Token.text, Token.text, hkind]

/-- Trees that are alike stand for the same condition, or the same is wrong with them. -/
theorem condition (h : x.Alike y) : SameOutcome x.condition y.condition := by
  induction h with
  | missing | root => rfl
  | group hkind => exact .atToken _ hkind
  | leaf hkind =>
    rw [Tree.condition, Tree.condition, hkind]
    split
    · rfl
    · exact .atToken _ hkind
  | binary hkind hleft hright ihl ihr =>
    rw [Tree.condition, Tree.condition, hleft.isMissing_eq, hright.isMissing_eq, hkind]
    split
    · exact .atToken _ hkind
    · split
      · exact ihl.bind fun _ => ihr.bind fun _ => rfl
      · exact ihl.bind fun _ => ihr.bind fun _ => rfl
      · exact ihl.bind fun _ => ihr.bind fun _ => rfl
      · exact .atToken _ hkind

theorem requireOrder (h : x.Alike y) : SameOutcome x.requireOrder y.requireOrder := by
  cases h with
  | missing | root => rfl
  | group hkind | binary hkind => exact .atToken _ hkind
  | leaf hkind =>
    rw [Tree.requireOrder, Tree.requireOrder, hkind]
    split
    · rfl
    · exact .atToken _ hkind

/-- Trees that are alike stand for the same preference, or the same is wrong with them. -/
theorem preference (h : x.Alike y) (order : StringOrder) :
    SameOutcome (x.preference order) (y.preference order) := by
  have hcondition := h.condition
  cases h with
  | missing | root => rfl
  | group hkind => exact .atToken _ hkind
  | leaf hkind =>
    rw [Tree.preference, Tree.preference, hkind]
    split
    · rfl
    · rfl
    · exact .atToken _ hkind
  | binary hkind hleft hright =>
    rw [Tree.preference, Tree.preference, hleft.isMissing_eq, hright.isMissing_eq, hkind]
    split
    · exact hcondition.bind fun _ => rfl
    · exact hcondition.bind fun _ => rfl
    · split
      · exact .atToken _ hkind
      · exact hright.requireOrder.bind fun _ => hleft.condition.bind fun _ => rfl
    · exact .atToken _ hkind

end Tree.Alike

/-! ### Printed rules -/

/-- The tree of a rule has the values that were read. -/
theorem isRule_expression {g : Grammar} {rule : String} {ts : List Token} {a : Arena}
    (hts : g.tokens rule = .ok ts) (ha : parse ts = .ok a) : a.expression.IsRule := by
  have hvalues : ValuesAdmitted ts := by
    intro t ht q words hkind
    exact Grammar.validate_of_mem_tokens hts ht hkind
  have hderives := derivesRule_of_parse ha
  generalize a.expression = tree at hderives
  cases hderives with
  | empty => exact .missing
  | order ho => exact .order (kind_of_type_order ho)
  | condition h => exact .condition (h.isAdmitted hvalues)
  | sorted h hs ho =>
    exact .sorted (kind_of_type_sortBy hs)
      (h.isAdmitted fun t ht => hvalues t (List.mem_append_left _ ht)) (kind_of_type_order ho)

/-- **Printed trees are not ambiguous.** Whatever types of token two rules may be made of, their
trees are printed in the same way exactly if they are the same up to the places of their tokens.
Then they stand for the same condition and the same preference, or the same is wrong with both. -/
theorem text_eq_iff_alike {g g' : Grammar} {rule rule' : String} {ts ts' : List Token}
    {a a' : Arena} (hts : g.tokens rule = .ok ts) (ha : parse ts = .ok a)
    (hts' : g'.tokens rule' = .ok ts') (ha' : parse ts' = .ok a') :
    (a.text = a'.text ↔ a.tree.Alike a'.tree) ∧
      (a.text = a'.text → SameOutcome a.expression.condition a'.expression.condition ∧
        ∀ order, SameOutcome (a.expression.preference order) (a'.expression.preference order)) := by
  have halike (h : a.text = a'.text) : a.expression.Alike a'.expression := by
    rw [Arena.text, Arena.text, tree_of_parse ha, tree_of_parse ha'] at h
    exact (isRule_expression hts ha).alike_of_text (isRule_expression hts' ha')
      (congrArg String.toList h)
  refine ⟨⟨fun h => ?_, Tree.Alike.text_eq⟩, fun h => ?_⟩
  · rw [tree_of_parse ha, tree_of_parse ha']
    exact .root (halike h)
  · exact ⟨(halike h).condition, fun order => (halike h).preference order⟩

/-- A phrase with a word that might be an operator, in two spellings. -/
theorem text_eq_iff_alike_phrase :
    ∃ ts ts' a a', Rank.grammar.tokens "GROUP-VERSION:'EAP or 7.4' OR build:1" = .ok ts ∧
      parse ts = .ok a ∧
      Grammar.tokens ⟨TokenType.all, []⟩ "(group_version : \"EAP or 7.4\" or BUILD: 1)" = .ok ts' ∧
      parse ts' = .ok a' ∧ a.text = "(or GROUP_VERSION:EAP or 7.4 BUILD:1)" ∧
      a.tree.Alike a'.tree := by
  have hread : (do
      let ts ← Rank.grammar.tokens "GROUP-VERSION:'EAP or 7.4' OR build:1"
      return (← parse ts).text : Except RuleError String) =
        .ok "(or GROUP_VERSION:EAP or 7.4 BUILD:1)" := by decide +kernel
  have hread' : (do
      let ts ← Grammar.tokens ⟨TokenType.all, []⟩ "(group_version : \"EAP or 7.4\" or BUILD: 1)"
      return (← parse ts).text : Except RuleError String) =
        .ok "(or GROUP_VERSION:EAP or 7.4 BUILD:1)" := by decide +kernel
  obtain ⟨ts, hts, hprinted⟩ := bind_eq_ok_iff.1 hread
  obtain ⟨ts', hts', hprinted'⟩ := bind_eq_ok_iff.1 hread'
  obtain ⟨a, ha, htext⟩ := map_eq_ok_iff.1 hprinted
  obtain ⟨a', ha', htext'⟩ := map_eq_ok_iff.1 hprinted'
  exact ⟨ts, ts', a, a', hts, ha, hts', ha', htext,
    (text_eq_iff_alike hts ha hts' ha').1.1 (htext.trans htext'.symm)⟩

end VersionRules
