import VersionRules.Proofs.Json.Lexemes

/-!
# Reading printed values

A printed value is read as itself, on one line or over several, unless it is nested too deep or
holds a number that no reader accepts. The lexemes of a value lead from the stage that awaits a
value to the one behind it, whatever arrays and objects are open around it.

## Main definitions

* `Leads` — the stage that a list of lexemes leads to

## Main results

* `leads_lexemes` — the lexemes of a value put it together again
* `readStrict?_compact`, `readStrict?_pretty` — printed values are read as themselves
-/

namespace VersionRules.Json

variable {cs : List Char} {l : Lexeme} {ls ms : List Lexeme} {s s' s'' : Stage}
  {stack : List Frame} {v : Json String}

/-- The lexemes `ls` lead from one stage to another. -/
def Leads (ls : List Lexeme) (s s' : Stage) : Prop :=
  ls.foldlM Stage.step s = some s'

namespace Leads

theorem nil : Leads [] s s :=
  rfl

theorem cons (hl : s.step l = some s') (hls : Leads ls s' s'') : Leads (l :: ls) s s'' := by
  rw [Leads, List.foldlM_cons, hl]
  exact hls

theorem append (hls : Leads ls s s') (hms : Leads ms s' s'') : Leads (ls ++ ms) s s'' := by
  rw [Leads, List.foldlM_append, hls]
  exact hms

/-- No item can be taken for the end of an array, so it may be the first one. -/
theorem firstItem {item : Json String} {items : List (Json String)}
    (h : Leads (itemLexemes (item :: items) ++ ls) (.value (.items [] :: stack)) s) :
    Leads (itemLexemes (item :: items) ++ ls) (.firstItem stack) s := by
  cases items <;> cases item <;> exact h

/-- No member can be taken for the end of an object, so it may be the first one. -/
theorem firstKey {member : String × Json String} {members : List (String × Json String)}
    (h : Leads (memberLexemes (member :: members) ++ ls) (.key [] stack) s) :
    Leads (memberLexemes (member :: members) ++ ls) (.firstKey stack) s := by
  cases members <;> exact h

end Leads

mutual

/-- The lexemes of a value put it together again, whatever is open around it. -/
theorem leads_lexemes :
    ∀ (v : Json String) (stack : List Frame),
      Leads v.lexemes (.value stack) (.after (v.mapStrings .printed) stack)
  | null, _ | bool _, _ | number _, _ | string _, _ => .cons rfl .nil
  | array [], _ => .cons rfl <| .cons rfl .nil
  | array (item :: items), stack =>
    .cons rfl (leads_itemLexemes (item :: items) (List.cons_ne_nil _ _) [] stack).firstItem
  | object [], _ => .cons rfl <| .cons rfl .nil
  | object (member :: members), stack =>
    .cons rfl (leads_memberLexemes (member :: members) (List.cons_ne_nil _ _) [] stack).firstKey

/-- The items of an array, up to its end, behind those that have been read. -/
theorem leads_itemLexemes :
    ∀ (items : List (Json String)), items ≠ [] → ∀ (done : List Written) (stack : List Frame),
      Leads (itemLexemes items ++ [.endArray]) (.value (.items done :: stack))
        (.after (.array (done.reverse ++ mapItems .printed items)) stack)
  | [], hne, _, _ => absurd rfl hne
  | [item], _, done, stack => by
    refine (leads_lexemes item (.items done :: stack)).append (.cons ?_ .nil)
    rw [Stage.step, List.reverse_cons]
    rfl
  | item :: next :: items, _, done, stack => by
    have hitems := leads_itemLexemes (next :: items) (List.cons_ne_nil _ _)
      (item.mapStrings .printed :: done) stack
    rw [List.reverse_cons, List.append_assoc] at hitems
    show Leads (item.lexemes ++ .comma :: itemLexemes (next :: items) ++ [.endArray]) _ _
    rw [List.append_assoc]
    exact (leads_lexemes item (.items done :: stack)).append (.cons rfl hitems)

/-- The members of an object, up to its end, behind those that have been read. -/
theorem leads_memberLexemes :
    ∀ (members : List (String × Json String)), members ≠ [] →
      ∀ (done : List (Escaped × Written)) (stack : List Frame),
        Leads (memberLexemes members ++ [.endObject]) (.key done stack)
          (.after (.object (done.reverse ++ mapMembers .printed members)) stack)
  | [], hne, _, _ => absurd rfl hne
  | [(key, value)], _, done, stack => by
    refine .cons rfl <| .cons rfl <|
      (leads_lexemes value (.member done (.printed key) :: stack)).append (.cons ?_ .nil)
    rw [Stage.step, List.reverse_cons]
    rfl
  | (key, value) :: next :: members, _, done, stack => by
    have hmembers := leads_memberLexemes (next :: members) (List.cons_ne_nil _ _)
      ((.printed key, value.mapStrings .printed) :: done) stack
    rw [List.reverse_cons, List.append_assoc] at hmembers
    refine .cons rfl <| .cons rfl ?_
    show Leads (value.lexemes ++ .comma :: memberLexemes (next :: members) ++ [.endObject]) _ _
    rw [List.append_assoc]
    exact (leads_lexemes value (.member done (.printed key) :: stack)).append (.cons rfl hmembers)

end

/-- A text that spells the lexemes of a value is read as the value, as it is printed. -/
theorem read?_of_spells (h : Spells cs v.lexemes) :
    read? (String.ofList cs) = some (v.mapStrings .printed) := by
  have hstage := leads_lexemes v []
  rw [read?, String.toList_ofList, h.lexemes?_eq]
  show (v.lexemes.foldlM Stage.step (.value []) >>= Stage.result?) = _
  rw [hstage]
  rfl

theorem readStrict?_of_spells (h : Spells cs v.lexemes) (hdepth : v.depth ≤ maxDepth)
    (hnumbers : v.allNumbers acceptsNumber) : readStrict? (String.ofList cs) = some v := by
  rw [readStrict?, read?_of_spells h]
  show (if (v.mapStrings Escaped.printed).depth ≤ maxDepth then _ else _) = _
  rw [depth_mapStrings, if_pos hdepth, decode?_mapStrings Escaped.decode?_printed v hnumbers]

/-- A value on one line is read as itself. -/
theorem readStrict?_compact (hdepth : v.depth ≤ maxDepth) (hnumbers : v.allNumbers acceptsNumber) :
    readStrict? v.compact = some v :=
  readStrict?_of_spells (spells_compactChars v hnumbers) hdepth hnumbers

/-- A value over several lines is read as itself. -/
theorem readStrict?_pretty (hdepth : v.depth ≤ maxDepth) (hnumbers : v.allNumbers acceptsNumber) :
    readStrict? v.pretty = some v :=
  readStrict?_of_spells (spells_prettyChars 0 v hnumbers) hdepth hnumbers

end VersionRules.Json
