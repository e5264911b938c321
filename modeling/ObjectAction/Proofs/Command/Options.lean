/-
Argument lists that spell options. A part of an argument list is an option with what it takes, or the path of a model.
Parts may stand in any order, as long as the paths keep theirs, and every option goes by its long or its short name.

Main statement: `readOptions_write`. Whatever way options are written, they are read back.
-/
import ObjectAction.Command.Options
import ObjectAction.Proofs.Body.Lexeme
import ObjectAction.Proofs.Table

namespace ObjectAction.Command

/-! ## Writing options -/

/-- The names of an option, the long one and the short one. -/
def Setting.option : Setting → Bool → String
  | component, short => if short then "-c" else "--component"
  | function, short => if short then "-f" else "--function"
  | argument, short => if short then "-a" else "--arg"

/-- An option with what it takes, by its long or its short name, or the path of a model. -/
inductive Part where
  | component (short : Bool) (name : String)
  | function (short : Bool) (name : String)
  | argument (short : Bool) (name : String) (value : Value)
  | dumpTree
  | model (path : String)

namespace Part

def words : Part → List String
  | component short name => [Setting.component.option short, name]
  | function short name => [Setting.function.option short, name]
  | argument short name value => [Setting.argument.option short, name ++ "=" ++ value.text]
  | dumpTree => ["--dump-ast"]
  | model path => [path]

def component? : Part → Option String
  | component _ name => some name
  | _ => none

def function? : Part → Option String
  | function _ name => some name
  | _ => none

def argument? : Part → Option (String × Value)
  | argument _ name value => some (name, value)
  | _ => none

def isDumpTree : Part → Bool
  | dumpTree => true
  | _ => false

def model? : Part → Option String
  | model path => some path
  | _ => none

end Part

/-- Whether the text of a value is typed as that value: an integer, a truth value, or a text that is not spelled like a
number or a truth value. -/
def Spellable : Value → Prop
  | .integer _ | .boolean _ => True
  | .string s =>
    Number.readInteger s.toList = none ∧ Number.readReal s.toList = none ∧ s ≠ "true" ∧ s ≠ "false"
  | _ => False

/-- Options that can be spelled. The arguments are in the order of their names, as they are in every table. -/
structure Options.Writable (o : Options) : Prop where
  models : o.models ≠ []
  paths : ∀ path ∈ o.models, path.toList.head? ≠ some '-'
  names : ∀ e ∈ o.arguments, '=' ∉ e.1.toList
  values : ∀ e ∈ o.arguments, Spellable e.2
  ascending : Table.Ascending o.arguments

/-- The parts spell the options. The function that is run by default need not be named. -/
structure Options.WrittenAs (o : Options) (parts : List Part) : Prop where
  component : parts.filterMap Part.component? = o.component.toList
  function : parts.filterMap Part.function? = [o.function] ∨
    parts.filterMap Part.function? = [] ∧ o.function = Options.initial.function
  arguments : (parts.filterMap Part.argument?).Perm o.arguments
  dumpTree : parts.any Part.isDumpTree = o.dumpTree
  models : parts.filterMap Part.model? = o.models

/-! ## Values by their spelling -/

theorem int64?_toInt (n : Int64) : Number.int64? n.toInt = some n := by
  have hmin : -9223372036854775808 ≤ n.toInt := Int64.le_toInt n
  have hmax : n.toInt ≤ 9223372036854775807 := Int64.toInt_le n
  unfold Number.int64?
  rw [if_pos ⟨hmin, hmax⟩, Int64.ofInt_toInt]

/-- Digits without a sign are not taken for one. -/
theorem signed_toDigits (n : Nat) : Number.signed (Nat.toDigits 10 n) = (false, Nat.toDigits 10 n) := by
  obtain ⟨d, ds, hds⟩ := List.exists_cons_of_ne_nil (Nat.toDigits_ne_nil (n := n) (b := 10))
  have hd : d.isDigit = true := by
    apply Nat.isDigit_of_mem_toDigits (b := 10) (n := n) (by decide) (by decide)
    simp [hds]
  rw [hds]
  unfold Number.signed
  split
  · rename_i heq
    cases heq
    cases hd
  · rename_i heq
    cases heq
    cases hd
  · rfl

/-- Decimal digits behind a sign, or without one, are read as the number that they stand for. -/
theorem readInteger_signed {cs : List Char} {negative : Bool} {m : Nat}
    (h : Number.signed cs = (negative, Nat.toDigits 10 m)) :
    Number.readInteger cs = Number.int64? (if negative then -(m : Int) else m) := by
  have hall : (Nat.toDigits 10 m).all Char.isDigit = true :=
    List.all_eq_true.mpr fun d hd => Nat.isDigit_of_mem_toDigits (by decide) (by decide) hd
  unfold Number.readInteger
  rw [h]
  simp [hall, Nat.toDigits_ne_nil, Lexeme.ofDigits_toDigits]

/-- What is written of an integer is read as that integer. -/
theorem readInteger_toString (n : Int64) : Number.readInteger (toString n.toInt).toList = some n := by
  have htext : toString n.toInt = n.toInt.repr := rfl
  rw [htext, Int.repr_eq_if]
  by_cases hn : 0 ≤ n.toInt
  · rw [if_pos hn, Nat.toList_repr, readInteger_signed (signed_toDigits _), if_neg (by decide), Int.toNat_of_nonneg hn]
    exact int64?_toInt n
  · have hsigned : ∀ ds, Number.signed ("-".toList ++ ds) = (true, ds) := fun _ => rfl
    have hvalue : -(((-n.toInt).toNat : Nat) : Int) = n.toInt := by omega
    rw [if_neg hn, String.toList_append, Nat.toList_repr, readInteger_signed (hsigned _), if_pos rfl, hvalue]
    exact int64?_toInt n

/-- A value that can be spelled is typed as itself. -/
theorem argumentValue_text {v : Value} (h : Spellable v) : argumentValue v.text = v := by
  cases v with
  | integer n =>
    have htext : (Value.integer n).text = toString n.toInt := by rw [Value.text]
    unfold argumentValue
    rw [htext, readInteger_toString]
  | boolean b =>
    cases b with
    | true => rfl
    | false => rfl
  | string s =>
    obtain ⟨hinteger, hreal, htrue, hfalse⟩ := h
    have htext : (Value.string s).text = s := by rw [Value.text]
    unfold argumentValue
    rw [htext, hinteger, hreal]
    dsimp only
    rw [if_neg htrue, if_neg hfalse]
  | _ => exact absurd h id

/-- A name without an equals sign ends at the first one, whatever the value holds. -/
theorem argument?_write {name : String} (hname : '=' ∉ name.toList) (text : String) :
    argument? (name ++ "=" ++ text) = some (name, argumentValue text) := by
  have hbefore : ∀ c ∈ name.toList, decide (c ≠ '=') = true := by
    intro c hc
    rw [decide_eq_true_eq]
    rintro rfl
    exact hname hc
  have hlist : (name ++ "=" ++ text).toList = name.toList ++ '=' :: text.toList := by simp
  unfold argument?
  rw [hlist, List.dropWhile_append_of_pos hbefore, List.takeWhile_append_of_pos hbefore]
  simp

/-! ## Reading parts -/

namespace Part

/-- The options with a part read. -/
def apply (o : Options) : Part → Options
  | component _ name => { o with component := some name }
  | function _ name => { o with function := name }
  | argument _ name value => { o with arguments := Table.put o.arguments name value }
  | dumpTree => { o with dumpTree := true }
  | model path => { o with models := o.models ++ [path] }

/-- A part that can be told from what stands before and after it. -/
def Plain : Part → Prop
  | argument _ name value => '=' ∉ name.toList ∧ Spellable value
  | model path => path.toList.head? ≠ some '-'
  | _ => True

end Part

theorem Setting.ofOption?_option (setting : Setting) (short : Bool) :
    Setting.ofOption? (setting.option short) = some setting := by
  cases setting <;> cases short <;> decide

/-- An option takes the word after it, also one that is spelled like an option. -/
theorem readOptions_setting (setting : Setting) (short : Bool) {o o' : Options} {value : String}
    (h : setting.apply o value = .ok o') (rest : List String) :
    readOptions o (setting.option short :: value :: rest) = readOptions o' rest := by
  conv_lhs => unfold readOptions
  rw [setting.ofOption?_option short]
  dsimp only
  rw [h]

/-- What does not begin with a dash is no option. -/
theorem readOptions_path {path : String} (h : path.toList.head? ≠ some '-') (o : Options) (rest : List String) :
    readOptions o (path :: rest) = readOptions { o with models := o.models ++ [path] } rest := by
  have hne : ∀ option : String, option.toList.head? = some '-' → path ≠ option := by
    rintro _ hdash rfl
    exact h hdash
  have hsetting : Setting.ofOption? path = none := by
    simp [Setting.ofOption?, hne "--component" rfl, hne "-c" rfl, hne "--function" rfl, hne "-f" rfl, hne "--arg" rfl,
      hne "-a" rfl]
  conv_lhs => unfold readOptions
  rw [hsetting]
  dsimp only
  rw [if_neg (hne "--dump-ast" rfl), if_neg (not_or.mpr ⟨hne "--help" rfl, hne "-h" rfl⟩), if_neg h]

/-- One part is read, and what follows it is read from there. -/
theorem readOptions_words {part : Part} (h : part.Plain) (o : Options) (rest : List String) :
    readOptions o (part.words ++ rest) = readOptions (part.apply o) rest := by
  cases part with
  | component short name => exact readOptions_setting .component short rfl rest
  | function short name => exact readOptions_setting .function short rfl rest
  | argument short name value =>
    obtain ⟨hname, hvalue⟩ := h
    apply readOptions_setting .argument short
    unfold Setting.apply
    rw [argument?_write hname, argumentValue_text hvalue]
    rfl
  | dumpTree => rfl
  | model path => exact readOptions_path h o rest

theorem readOptions_parts {parts : List Part} (h : ∀ part ∈ parts, part.Plain) (o : Options) :
    readOptions o (parts.flatMap Part.words) = readOptions (parts.foldl Part.apply o) [] := by
  induction parts generalizing o with
  | nil => rfl
  | cons part parts ih =>
    obtain ⟨hpart, hparts⟩ := List.forall_mem_cons.mp h
    rw [List.flatMap_cons, readOptions_words hpart, List.foldl_cons]
    exact ih hparts _

/-- The last component and the last function count, and all arguments and models. -/
theorem foldl_apply (parts : List Part) (o : Options) :
    parts.foldl Part.apply o =
      { component := (parts.filterMap Part.component?).getLast?.or o.component
        function := (parts.filterMap Part.function?).getLast?.getD o.function
        arguments := Table.putAll o.arguments (parts.filterMap Part.argument?)
        dumpTree := o.dumpTree || parts.any Part.isDumpTree
        models := o.models ++ parts.filterMap Part.model? } := by
  induction parts generalizing o with
  | nil => simp [Table.putAll]
  | cons part parts ih =>
    rw [List.foldl_cons, ih]
    cases part <;>
      simp [Part.apply, Part.component?, Part.function?, Part.argument?, Part.isDumpTree, Part.model?, Table.putAll,
        List.filterMap_cons, List.getLast?_cons]

/-! ## Options read back -/

theorem Options.WrittenAs.plain {o : Options} {parts : List Part} (hparts : o.WrittenAs parts) (h : o.Writable) :
    ∀ part ∈ parts, part.Plain := by
  intro part hpart
  cases part with
  | argument short name value =>
    have hmem : (name, value) ∈ o.arguments :=
      hparts.arguments.mem_iff.mp (List.mem_filterMap.mpr ⟨_, hpart, rfl⟩)
    exact ⟨h.names _ hmem, h.values _ hmem⟩
  | model path =>
    have hmem : path ∈ o.models := by
      rw [← hparts.models]
      exact List.mem_filterMap.mpr ⟨_, hpart, rfl⟩
    exact h.paths path hmem
  | _ => trivial

/-- All parts together make the options that they spell. -/
theorem Options.WrittenAs.foldl_apply_initial {o : Options} {parts : List Part} (hparts : o.WrittenAs parts)
    (h : Table.Ascending o.arguments) : parts.foldl Part.apply .initial = o := by
  have hcomponent : (parts.filterMap Part.component?).getLast?.or none = o.component := by
    rw [hparts.component]
    cases o.component <;> rfl
  have hfunction : (parts.filterMap Part.function?).getLast?.getD Options.initial.function = o.function := by
    rcases hparts.function with hnamed | ⟨hnone, hdefault⟩
    · rw [hnamed]
      rfl
    · rw [hnone, hdefault]
      rfl
  have harguments : Table.putAll [] (parts.filterMap Part.argument?) = o.arguments :=
    h.putAll_of_perm hparts.arguments
  rw [foldl_apply]
  simp only [Options.initial] at hfunction ⊢
  rw [hcomponent, hfunction, harguments, hparts.dumpTree, hparts.models]
  rfl

/-- Options that can be spelled are read back from any argument list that spells them, with the parts in any order that
keeps the paths in theirs. -/
theorem readOptions_write {o : Options} {parts : List Part} (h : o.Writable) (hparts : o.WrittenAs parts) :
    readOptions .initial (parts.flatMap Part.words) = .ok (.run o) := by
  rw [readOptions_parts (hparts.plain h), hparts.foldl_apply_initial h.ascending, readOptions, if_neg]
  simpa using h.models

/-- Options whose names look like options, and whose values look like pairs. -/
def tangledOptions : Options :=
  ⟨some "-c", "--help", [("", .string "--arg"), ("-n", .integer (-3)), ("pair", .string "a=b"), ("up", .boolean true)],
    true, ["b.yaml", "a.yaml"]⟩

/-- The models stand between and behind the options, and the arguments are not in order. -/
def tangledParts : List Part :=
  [.model "b.yaml", .argument true "up" (.boolean true), .function true "--help", .argument false "" (.string "--arg"),
    .model "a.yaml", .dumpTree, .argument false "-n" (.integer (-3)), .component false "-c",
    .argument true "pair" (.string "a=b")]

theorem readOptions_write_tangledParts :
    tangledOptions.Writable ∧ tangledOptions.WrittenAs tangledParts ∧
    tangledParts.flatMap Part.words = ["b.yaml", "-a", "up=true", "-f", "--help", "--arg", "=--arg", "a.yaml",
      "--dump-ast", "--arg", "-n=-3", "--component", "-c", "-a", "pair=a=b"] ∧
    readOptions .initial (tangledParts.flatMap Part.words) = .ok (.run tangledOptions) := by
  have hwritable : tangledOptions.Writable := by
    constructor
    · exact List.cons_ne_nil _ _
    · decide
    · have hnames : ∀ name ∈ tangledOptions.arguments.map (·.1), '=' ∉ name.toList := by decide
      exact fun e he => hnames e.1 (List.mem_map_of_mem he)
    · simp only [tangledOptions, List.forall_mem_cons]
      exact ⟨⟨rfl, rfl, by decide, by decide⟩, trivial, ⟨rfl, rfl, by decide, by decide⟩, trivial, nofun⟩
    · unfold Table.Ascending
      decide
  have hwritten : tangledOptions.WrittenAs tangledParts := by
    constructor
    · rfl
    · exact .inl rfl
    · exact @List.perm_append_comm _ [_] [_, _, _]
    · rfl
    · rfl
  exact ⟨hwritable, hwritten, by rfl, readOptions_write hwritable hwritten⟩

end ObjectAction.Command
