/-
Every lexeme of a well-formed tree is read whole: its spelling, followed by a blank, gives one token of
its kind again. Therefore the text of a body has the lexemes of the body as its tokens.
-/
import ObjectAction.Proofs.Body.Writing

namespace ObjectAction

open Lexeme

/-- Every lexeme of the list is read whole before a blank. -/
def AllWhole (ls : List Lexeme) : Prop := ∀ l ∈ ls, l.Whole

namespace AllWhole

variable {l : Lexeme} {ls ms : List Lexeme}

theorem nil : AllWhole [] := fun _ h => nomatch h

theorem cons (hl : l.Whole) (hls : AllWhole ls) : AllWhole (l :: ls) :=
  List.forall_mem_cons.mpr ⟨hl, hls⟩

theorem append (hls : AllWhole ls) (hms : AllWhole ms) : AllWhole (ls ++ ms) :=
  List.forall_mem_append.mpr ⟨hls, hms⟩

theorem symbol {y : Symbol} (hls : AllWhole ls) : AllWhole (.symbol y :: ls) := cons (symbol_whole y) hls

theorem keyword {k : Keyword} (hk : k ≠ .«end») (hls : AllWhole ls) : AllWhole (.keyword k :: ls) :=
  cons (keyword_whole hk) hls

theorem name {w : String} (hw : isName w = true) (hls : AllWhole ls) : AllWhole (.name w :: ls) :=
  cons (name_whole hw) hls

theorem enclosed (hls : AllWhole ls) : AllWhole (Lexeme.enclosed ls) :=
  symbol (hls.append (symbol nil))

theorem enclosedIf {asked : Bool} (hls : AllWhole ls) : AllWhole (Lexeme.enclosedIf asked ls) := by
  cases asked with
  | false => exact hls
  | true => exact hls.enclosed

end AllWhole

theorem UnaryOperator.lexeme_whole (op : UnaryOperator) : op.lexeme.Whole := by
  cases op with
  | minus | plus => exact symbol_whole _
  | _ => exact keyword_whole (by decide)

theorem BinaryOperator.lexeme_whole (op : BinaryOperator) : op.lexeme.Whole := by
  cases op with
  | and | or => exact keyword_whole (by decide)
  | _ => exact symbol_whole _

mutual

theorem Expression.allWhole : ∀ e : Expression, e.isWellFormed = true → AllWhole e.lexemes
  | .integer _ n, hw => .cons (integer_whole (of_decide_eq_true hw)) .nil
  | .real _ _, hw => nomatch hw
  | .string _ _, hw => .cons (string_whole hw) .nil
  | .boolean _ true, _ | .boolean _ false, _ | .self _, _ | .selected _, _ => .keyword (by decide) .nil
  | .enumerator _ _ _, hw =>
    have ⟨howner, hname⟩ := Bool.and_eq_true_iff.mp hw
    .cons (qualifier_whole howner) (.name hname .nil)
  | .parameter _ _ true, hw | .parameter _ _ false, hw => .keyword (by decide) (.symbol (.name hw .nil))
  | .var _ _, hw => .name hw .nil
  | .field _ target _, hw =>
    have ⟨htarget, hname⟩ := Bool.and_eq_true_iff.mp hw
    (target.allWhole htarget).enclosedIf.append (.symbol (.name hname .nil))
  | .index _ target position, hw =>
    have ⟨htarget, hposition⟩ := Bool.and_eq_true_iff.mp hw
    ((target.allWhole htarget).enclosedIf.append (.symbol (position.allWhole hposition))).append (.symbol .nil)
  | .unary _ op operand, hw => .cons op.lexeme_whole (operand.allWhole hw).enclosedIf
  | .binary _ left op right, hw =>
    have ⟨hleft, hright⟩ := Bool.and_eq_true_iff.mp hw
    (left.allWhole hleft).enclosedIf.append (.cons op.lexeme_whole (right.allWhole hright).enclosedIf)
  | .invoke _ callee w args, hw => by
    simp only [Expression.isWellFormed, Bool.and_eq_true] at hw
    exact (callee.allWhole hw.1.1).append (.name hw.1.2 (.symbol (Argument.allWhole args hw.2)))

theorem Callee.allWhole : ∀ c : Callee, c.isWellFormed = true → AllWhole c.lexemes
  | .function, _ => .symbol .nil
  | .unmarked _, hw => .cons (qualifier_whole hw) .nil
  | .receiver target, hw => (target.allWhole hw).enclosedIf.append (.symbol .nil)
  | .bridge _, hw | .ofClass _, hw | .port _, hw => nomatch hw

theorem Argument.allWhole : ∀ args : List Argument, Argument.areWellFormed args = true →
    AllWhole (Argument.lexemes args)
  | [], _ => .symbol .nil
  | .mk _ w value :: rest, hw => by
    simp only [Argument.areWellFormed, Bool.and_eq_true] at hw
    have hrest := Argument.allWhole rest hw.2
    refine (AllWhole.name hw.1.1 (.symbol (value.allWhole hw.1.2))).append ?_
    split
    · exact .symbol .nil
    · exact .symbol hrest

end

theorem Cardinality.lexeme_whole (c : Cardinality) : c.lexeme.Whole := by
  cases c <;> exact keyword_whole (by decide)

theorem NavigationStart.lexeme_whole {start : NavigationStart} (hw : start.isWellFormed = true) :
    start.lexeme.Whole := by
  cases start with
  | self | selected => exact keyword_whole (by decide)
  | var => exact name_whole hw

theorem Relationship.allWhole {r : Relationship} (hw : r.isWellFormed = true) : AllWhole r.lexemes := by
  obtain ⟨id, phrase⟩ := r
  obtain ⟨hid, hphrase⟩ := Bool.and_eq_true_iff.mp hw
  cases phrase with
  | none => exact .name hid .nil
  | some p => exact .name hid (.symbol (.cons (phrase_whole hphrase) .nil))

theorem Relationship.acrossWhole {r : Relationship} (hw : r.isWellFormed = true) {link : Option String}
    (hl : link.all isName = true) : AllWhole (r.acrossLexemes link) := by
  refine ((AllWhole.keyword (by decide) (allWhole hw)).append ?_).append (.symbol .nil)
  cases link with
  | none => exact .nil
  | some l => exact .keyword (by decide) (.name hl .nil)

theorem Expression.conditionWhole {c : Option Expression} (hw : c.all isWellFormed = true) :
    AllWhole (conditionLexemes c) := by
  cases c with
  | none => exact .symbol .nil
  | some e => exact (AllWhole.keyword (by decide) (e.allWhole hw)).append (.symbol .nil)

/-- A keyword, its condition in parentheses and the block after it. -/
theorem Expression.guardWhole {k : Keyword} {ls : List Lexeme} (condition : Expression) (hk : k ≠ .«end»)
    (hc : condition.isWellFormed = true) (hls : AllWhole ls) :
    AllWhole (.keyword k :: Lexeme.enclosed condition.lexemes ++ ls) :=
  (AllWhole.keyword hk (condition.allWhole hc).enclosed).append hls

theorem NavigationStep.allWhole : ∀ chain : List NavigationStep, chain.all isWellFormed = true →
    AllWhole (chain.flatMap lexemes)
  | [], _ => .nil
  | s :: chain, hw => by
    obtain ⟨hs, hchain⟩ := Bool.and_eq_true_iff.mp hw
    obtain ⟨hname, hr⟩ := Bool.and_eq_true_iff.mp hs
    have hstep : AllWhole s.lexemes :=
      (AllWhole.symbol (.name hname (.symbol (Relationship.allWhole hr)))).append (.symbol .nil)
    exact hstep.append (allWhole chain hchain)

theorem EventSpec.meaningWhole {meaning : Option String}
    (hw : meaning.all (fun m => isName m || isQuotable '\'' m) = true) : AllWhole (meaningLexemes meaning) := by
  cases meaning with
  | none => exact .nil
  | some m =>
    rw [Option.all_some, Bool.or_eq_true] at hw
    refine .symbol (.cons ?_ .nil)
    split
    · exact name_whole ‹_›
    · exact phrase_whole (hw.resolve_left ‹_›)

theorem EventTarget.allWhole {target : EventTarget} (hw : target.isWellFormed = true) :
    AllWhole target.lexemes := by
  cases target with
  | ofClass | creator => exact .name hw (.keyword (by decide) .nil)
  | receiver e => exact (e.allWhole hw).enclosed

theorem EventSpec.addressedWhole {event : EventSpec} {target : EventTarget} (he : event.isWellFormed = true)
    (ht : target.isWellFormed = true) : AllWhole (event.addressedLexemes target) := by
  obtain ⟨label, meaning, args⟩ := event
  simp only [EventSpec.isWellFormed, Bool.and_eq_true] at he
  obtain ⟨⟨hlabel, hmeaning⟩, hargs⟩ := he
  have harguments : AllWhole (if args.isEmpty then [] else .symbol .leftParen :: Argument.lexemes args) := by
    split
    · exact .nil
    · exact .symbol (Argument.allWhole args hargs)
  have hspec := (AllWhole.name hlabel (meaningWhole hmeaning)).append harguments
  exact (hspec.append (.keyword (by decide) (EventTarget.allWhole ht))).append (.symbol .nil)

theorem Expression.markedTargetWhole {target : Expression} (hw : target.isWellFormed = true) :
    AllWhole target.markedTargetLexemes := by
  unfold markedTargetLexemes
  split
  · cases target with
    | field x t w =>
      obtain ⟨ht, hname⟩ := Bool.and_eq_true_iff.mp hw
      exact (t.allWhole ht).enclosed.append (.symbol (.name hname .nil))
    | index x t position =>
      obtain ⟨ht, hposition⟩ := Bool.and_eq_true_iff.mp hw
      exact ((t.allWhole ht).enclosed.append (.symbol (position.allWhole hposition))).append (.symbol .nil)
    | _ => exact allWhole _ hw
  · exact target.allWhole hw

/-- Markers stand before the invocations that they are for. -/
theorem Expression.markedWhole {e : Expression} (hw : e.isWellFormedOrMarked = true) :
    AllWhole e.lexemes ∧ AllWhole (e.marker.toList.map .keyword) := by
  have hmarked : ∀ {k : Keyword} {owner w : String} {args : List Argument}, k ≠ .«end» →
      (isWord owner && isName w && Argument.areWellFormed args) = true →
      AllWhole (.qualifier owner :: .name w :: .symbol .leftParen :: Argument.lexemes args) ∧
        AllWhole [.keyword k] := by
    intro k owner w args hk h
    simp only [Bool.and_eq_true] at h
    exact ⟨.cons (qualifier_whole h.1.1) (.name h.1.2 (.symbol (Argument.allWhole args h.2))), .keyword hk .nil⟩
  cases e with
  | invoke y callee w args =>
    cases callee with
    | function | unmarked | receiver => exact ⟨allWhole _ hw, .nil⟩
    | bridge | ofClass | port => exact hmarked (by decide) hw
  | _ => exact ⟨allWhole _ hw, .nil⟩

theorem Expression.assignWhole {target value : Expression} (ht : target.isWellFormed = true)
    (hv : value.isWellFormedOrMarked = true) : AllWhole (target.assignLexemes value) := by
  obtain ⟨hvalue, hmarker⟩ := markedWhole hv
  unfold assignLexemes
  refine (AllWhole.append ?_ (.symbol hvalue)).append (.symbol .nil)
  cases hm : value.marker with
  | none => exact target.allWhole ht
  | some k =>
    rw [hm] at hmarker
    exact hmarker.append (markedTargetWhole ht)

mutual

/-- The lexemes of a well-formed statement are read whole. -/
theorem Statement.allWhole : ∀ s : Statement, s.isWellFormed = true → AllWhole s.lexemes
  | .breakLoop _, _ | .continueLoop _, _ => .keyword (by decide) (.symbol .nil)
  | .stop _, _ => .keyword (by decide) (.keyword (by decide) (.symbol .nil))
  | .returnValue _ none, _ => .keyword (by decide) (.symbol .nil)
  | .returnValue _ (some e), hw => (AllWhole.keyword (by decide) (e.allWhole hw)).append (.symbol .nil)
  | .assign _ target value, hw => by
    simp only [Statement.isWellFormed, Bool.and_eq_true] at hw
    exact Expression.assignWhole hw.1.2 hw.2
  | .invoke _ e, hw => by
    obtain ⟨hlexemes, hmarker⟩ := Expression.markedWhole (Bool.and_eq_true_iff.mp hw).2
    exact (hmarker.append hlexemes).append (.symbol .nil)
  | .create _ w className, hw => by
    obtain ⟨hv, hc⟩ := Bool.and_eq_true_iff.mp hw
    refine .keyword (by decide) (.keyword (by decide) (.keyword (by decide)
      (.append ?_ (.keyword (by decide) (.name hc (.symbol .nil))))))
    cases w with
    | none => exact .nil
    | some w => exact .name hv .nil
  | .delete _ w, hw =>
    .keyword (by decide) (.keyword (by decide) (.keyword (by decide) (.name hw (.symbol .nil))))
  | .relate _ source target r link, hw => by
    simp only [Statement.isWellFormed, Bool.and_eq_true] at hw
    obtain ⟨⟨⟨hs, ht⟩, hr⟩, hl⟩ := hw
    exact .keyword (by decide) (.name hs (.keyword (by decide) (.name ht (Relationship.acrossWhole hr hl))))
  | .unrelate _ source target r link, hw => by
    simp only [Statement.isWellFormed, Bool.and_eq_true] at hw
    obtain ⟨⟨⟨hs, ht⟩, hr⟩, hl⟩ := hw
    exact .keyword (by decide) (.name hs (.keyword (by decide) (.name ht (Relationship.acrossWhole hr hl))))
  | .selectFrom _ c result className filter, hw => by
    simp only [Statement.isWellFormed, Bool.and_eq_true] at hw
    obtain ⟨⟨⟨_, hresult⟩, hclass⟩, hfilter⟩ := hw
    exact .keyword (by decide) (.cons c.lexeme_whole (.name hresult (.keyword (by decide) (.keyword (by decide)
      (.keyword (by decide) (.name hclass (Expression.conditionWhole hfilter)))))))
  | .selectRelated _ c result start chain filter, hw => by
    simp only [Statement.isWellFormed, Bool.and_eq_true] at hw
    obtain ⟨⟨⟨⟨hresult, hstart⟩, _⟩, hchain⟩, hfilter⟩ := hw
    exact .keyword (by decide) (.cons c.lexeme_whole (.name hresult (.keyword (by decide) (.keyword (by decide)
      (.cons (start.lexeme_whole hstart) ((NavigationStep.allWhole chain hchain).append
        (Expression.conditionWhole hfilter)))))))
  | .forEach _ item set b, hw => by
    simp only [Statement.isWellFormed, Bool.and_eq_true] at hw
    obtain ⟨⟨hi, hs⟩, hb⟩ := hw
    exact .keyword (by decide) (.keyword (by decide) (.name hi (.keyword (by decide) (.name hs
      ((b.allWhole hb).append (.keyword (by decide) (.symbol .nil)))))))
  | .whileLoop _ condition b, hw => by
    obtain ⟨hc, hb⟩ := Bool.and_eq_true_iff.mp hw
    exact (condition.guardWhole (by decide) hc (b.allWhole hb)).append (.keyword (by decide) (.symbol .nil))
  | .branch _ condition b clauses none, hw => by
    simp only [Statement.isWellFormed, Bool.and_eq_true] at hw
    obtain ⟨⟨hc, hb⟩, hclauses⟩ := hw
    exact ((condition.guardWhole (by decide) hc (b.allWhole hb)).append (Elif.allWhole clauses hclauses)).append
      (.keyword (by decide) (.symbol .nil))
  | .branch _ condition b clauses (some otherwise), hw => by
    simp only [Statement.isWellFormed, Bool.and_eq_true] at hw
    obtain ⟨⟨⟨hc, hb⟩, hclauses⟩, ho⟩ := hw
    exact (((condition.guardWhole (by decide) hc (b.allWhole hb)).append (Elif.allWhole clauses hclauses)).append
      (.keyword (by decide) (otherwise.allWhole ho))).append (.keyword (by decide) (.symbol .nil))
  | .generate _ event target, hw =>
    have ⟨he, ht⟩ := Bool.and_eq_true_iff.mp hw
    .keyword (by decide) (EventSpec.addressedWhole he ht)
  | .createEvent _ w event target, hw => by
    simp only [Statement.isWellFormed, Bool.and_eq_true] at hw
    obtain ⟨⟨hv, he⟩, ht⟩ := hw
    exact .keyword (by decide) (.keyword (by decide) (.keyword (by decide) (.name hv (.keyword (by decide)
      (EventSpec.addressedWhole he ht)))))
  | .generateCreated _ w, hw => .keyword (by decide) (.name hw (.symbol .nil))

theorem Block.allWhole : ∀ b : Block, b.isWellFormed = true → AllWhole b.lexemes
  | .mk _ statements, hw => Statement.allWholeOfAll statements hw

theorem Statement.allWholeOfAll : ∀ ss : List Statement, Statement.areWellFormed ss = true →
    AllWhole (Statement.lexemesOfAll ss)
  | [], _ => .nil
  | s :: ss, hw =>
    have ⟨hs, hss⟩ := Bool.and_eq_true_iff.mp hw
    (s.allWhole hs).append (Statement.allWholeOfAll ss hss)

theorem Elif.allWhole : ∀ clauses : List Elif, Elif.areWellFormed clauses = true → AllWhole (Elif.lexemes clauses)
  | [], _ => .nil
  | .mk _ condition b :: clauses, hw => by
    simp only [Elif.areWellFormed, Bool.and_eq_true] at hw
    obtain ⟨⟨hc, hb⟩, hclauses⟩ := hw
    exact (condition.guardWhole (by decide) hc (b.allWhole hb)).append (Elif.allWhole clauses hclauses)

end

end ObjectAction
