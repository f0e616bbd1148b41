import HackAssembler.Command.Run

/-!
# The meaning of a command line

Each argument gives some items, and then the next argument follows, or the path of the output, or
nothing, since the answer is known.  A command line gives no two items for one slot.

* `Letters`, `LongName`, `Argument`   what an argument gives, by its form;
* `Asks`                  what a command line gives, and its answer if it asks for one; behind `--`
                          stand inputs alone, and what follows a request for an answer is not read;
* `giveAll_eq_some_iff`   items are taken if their slots are free and differ;
* `readAll_of_asks`, `exists_asks`   both directions of reading a line;
* `parseArguments_eq_some_iff`   the answer to every command line, and `Asks.parseArguments_eq`:
                          a repeated option or a second input is a mistake;
* `options_eq_ok_iff`     the command lines that ask for a program to be assembled.
-/

namespace HackAssembler

namespace Arguments

/-! ## items -/

/-- one thing that a command line gives -/
inductive Item where
  | input (path : String)
  | output (path : String)
  | dump
  | symbols
  deriving DecidableEq, Repr

/-- what a command line gives at most once -/
inductive Slot where
  | input
  | output
  | dump
  | symbols
  deriving DecidableEq, Repr

namespace Item

def slot : Item → Slot
  | input _ => .input
  | output _ => .output
  | dump => .dump
  | symbols => .symbols

def input? : Item → Option String
  | input path => some path
  | _ => none

def output? : Item → Option String
  | output path => some path
  | _ => none

end Item

/-- the options that are made of `items` -/
def requested (items : List Item) : Options where
  input := (items.findSome? Item.input?).getD defaultInput
  output := items.findSome? Item.output?
  dump := items.contains .dump
  symbols := items.contains .symbols

def give (g : Given) : Item → Option Given
  | .input path => giveInput g path
  | .output path => giveOutput g path
  | .dump => giveDump g
  | .symbols => giveSymbols g

def giveAll (g : Given) : List Item → Option Given
  | [] => some g
  | item :: items => (give g item).bind fun g => giveAll g items

theorem giveAll_cons (g : Given) (item : Item) (items : List Item) :
    giveAll g (item :: items) = (give g item).bind fun g => giveAll g items := rfl

theorem giveAll_singleton (g : Given) (item : Item) : giveAll g [item] = give g item := by
  rw [giveAll_cons]
  cases give g item <;> rfl

theorem giveAll_append (g : Given) (xs ys : List Item) :
    giveAll g (xs ++ ys) = (giveAll g xs).bind fun g => giveAll g ys := by
  induction xs generalizing g with
  | nil => rfl
  | cons x xs ih =>
    rw [List.cons_append, giveAll_cons, giveAll_cons, Option.bind_assoc]
    simp only [ih]

namespace Given

def has (g : Given) : Slot → Bool
  | .input => g.input.isSome
  | .output => g.output.isSome
  | .dump => g.dump
  | .symbols => g.symbols

def put (g : Given) : Item → Given
  | .input path => { g with input := some path }
  | .output path => { g with output := some path }
  | .dump => { g with dump := true }
  | .symbols => { g with symbols := true }

/-- what was given before, and `items` -/
def join (g : Given) (items : List Item) : Given where
  input := g.input.or (items.findSome? Item.input?)
  output := g.output.or (items.findSome? Item.output?)
  dump := g.dump || items.contains .dump
  symbols := g.symbols || items.contains .symbols

theorem has_put (g : Given) (item : Item) (s : Slot) :
    (g.put item).has s ↔ s = item.slot ∨ g.has s := by
  cases item <;> cases s <;> simp [put, has, Item.slot]

theorem join_nil (g : Given) : g.join [] = g := by
  simp [join]

theorem join_cons {g : Given} {item : Item} (h : ¬ g.has item.slot) (items : List Item) :
    g.join (item :: items) = (g.put item).join items := by
  cases item with
  | input path =>
    have hnone : g.input = none := by simpa [has, Item.slot] using h
    simp [join, put, hnone, List.findSome?_cons, Item.input?, Item.output?]
  | output path =>
    have hnone : g.output = none := by simpa [has, Item.slot] using h
    simp [join, put, hnone, List.findSome?_cons, Item.input?, Item.output?]
  | dump => simp [join, put, List.findSome?_cons, Item.input?, Item.output?]
  | symbols => simp [join, put, List.findSome?_cons, Item.input?, Item.output?]

theorem options_join_empty (items : List Item) : (join {} items).options = requested items := by
  simp [join, Given.options, requested]

end Given

theorem give_eq (g : Given) (item : Item) :
    give g item = if g.has item.slot then none else some (g.put item) := by
  obtain ⟨input, output, dump, symbols⟩ := g
  cases item with
  | input path => cases input <;> rfl
  | output path => cases output <;> rfl
  | dump => cases dump <;> rfl
  | symbols => cases symbols <;> rfl

theorem giveAll_eq_some_iff {g g' : Given} {items : List Item} :
    giveAll g items = some g' ↔
      (items.map Item.slot).Nodup ∧ (∀ item ∈ items, ¬ g.has item.slot) ∧ g' = g.join items := by
  induction items generalizing g with
  | nil =>
    rw [giveAll, Given.join_nil]
    constructor
    · intro h
      cases h
      exact ⟨List.nodup_nil, by simp, rfl⟩
    · rintro ⟨-, -, rfl⟩
      rfl
  | cons item items ih =>
    rw [giveAll_cons, give_eq]
    by_cases h : g.has item.slot
    · rw [if_pos h]
      constructor
      · intro e
        cases e
      · rintro ⟨-, hfree, -⟩
        exact absurd h (hfree item List.mem_cons_self)
    · rw [if_neg h, Option.bind_some, ih, Given.join_cons h, List.map_cons, List.nodup_cons,
        List.forall_mem_cons]
      constructor
      · rintro ⟨hnodup, hfree, e⟩
        refine ⟨⟨?_, hnodup⟩, ⟨h, fun other ho hg => ?_⟩, e⟩
        · intro hm
          obtain ⟨other, ho, hs⟩ := List.mem_map.mp hm
          exact hfree other ho ((Given.has_put ..).mpr (.inl hs))
        · exact hfree other ho ((Given.has_put ..).mpr (.inr hg))
      · rintro ⟨⟨hm, hnodup⟩, ⟨-, hfree⟩, e⟩
        refine ⟨hnodup, fun other ho hp => ?_, e⟩
        rcases (Given.has_put ..).mp hp with hs | hg
        · exact hm (List.mem_map.mpr ⟨other, ho, hs⟩)
        · exact hfree other ho hg

/-! ## one argument -/

/-- what a command line may ask for without a program -/
inductive Answer where
  | help
  | version
  deriving DecidableEq, Repr

def Answer.request : Answer → Request
  | help => .help
  | version => .version

def Answer.text : Answer → String
  | help => helpText
  | version => versionText

/-- what comes when an argument has been read -/
inductive Ending where
  | next
  /-- the next argument is the output -/
  | output
  | answer (a : Answer)

def Ending.step (g : Given) : Ending → Step
  | next => .next g
  | output => .output g
  | answer a => .answer a.request

/-- the letters behind a dash; those behind the output are its path, those behind an answer are not
read -/
inductive Letters : List Char → List Item → Ending → Prop
  | nil : Letters [] [] .next
  | dump {cs : List Char} {items : List Item} {e : Ending} (h : Letters cs items e) :
      Letters ('d' :: cs) (.dump :: items) e
  | symbols {cs : List Char} {items : List Item} {e : Ending} (h : Letters cs items e) :
      Letters ('s' :: cs) (.symbols :: items) e
  | help (cs : List Char) : Letters ('h' :: cs) [] (.answer .help)
  | version (cs : List Char) : Letters ('V' :: cs) [] (.answer .version)
  | waiting : Letters ['o'] [] .output
  | output {cs : List Char} (h : cs ≠ []) :
      Letters ('o' :: cs) [.output (String.ofList (dropEquals cs))] .next

/-- the name behind two dashes; only the output has a value -/
inductive LongName : List Char → List Item → Ending → Prop
  | dump : LongName "dump".toList [.dump] .next
  | symbols : LongName "symbols".toList [.symbols] .next
  | help : LongName "help".toList [] (.answer .help)
  | version : LongName "version".toList [] (.answer .version)
  | waiting : LongName "output".toList [] .output
  | output (value : List Char) :
      LongName ("output".toList ++ '=' :: value) [.output (String.ofList value)] .next

inductive Argument : String → List Item → Ending → Prop
  | input {argument : String} (h : ¬ isOption argument.toList) :
      Argument argument [.input argument] .next
  | letters {argument : String} {c : Char} {cs : List Char} {items : List Item} {e : Ending}
      (ha : argument.toList = '-' :: c :: cs) (hc : c ≠ '-') (h : Letters (c :: cs) items e) :
      Argument argument items e
  | name {argument : String} {cs : List Char} {items : List Item} {e : Ending}
      (ha : argument.toList = '-' :: '-' :: cs) (h : LongName cs items e) :
      Argument argument items e

section
variable {cs : List Char} {items : List Item} {e : Ending}

theorem readLetters_of_letters (h : Letters cs items e) (g : Given) :
    readLetters g cs = (giveAll g items).map fun g => e.step g := by
  induction h generalizing g with
  | nil => rfl
  | dump h ih =>
    rw [readLetters, giveAll_cons, Option.map_bind]
    simp only [ih]
    rfl
  | symbols h ih =>
    rw [readLetters, giveAll_cons, Option.map_bind]
    simp only [ih]
    rfl
  | help cs => rfl
  | version cs => rfl
  | waiting => rfl
  | @output cs h =>
    rw [giveAll_singleton]
    cases cs with
    | nil => exact absurd rfl h
    | cons c cs => rfl

theorem exists_letters {g : Given} {st : Step} (h : readLetters g cs = some st) :
    ∃ items e, Letters cs items e := by
  fun_induction readLetters g cs with
  | case1 g => exact ⟨_, _, .nil⟩
  | case2 g cs ih =>
    obtain ⟨g', -, h⟩ := Option.bind_eq_some_iff.mp h
    obtain ⟨items, e, hl⟩ := ih g' h
    exact ⟨_, _, .dump hl⟩
  | case3 g cs ih =>
    obtain ⟨g', -, h⟩ := Option.bind_eq_some_iff.mp h
    obtain ⟨items, e, hl⟩ := ih g' h
    exact ⟨_, _, .symbols hl⟩
  | case4 g cs => exact ⟨_, _, .help cs⟩
  | case5 g cs => exact ⟨_, _, .version cs⟩
  | case6 g => exact ⟨_, _, .waiting⟩
  | case7 g cs hne => exact ⟨_, _, .output hne⟩
  | case8 => cases h

theorem eq_of_cutValue_none (h : (cutValue cs).2 = none) : (cutValue cs).1 = cs := by
  induction cs with
  | nil => rfl
  | cons c cs ih =>
    rw [cutValue] at h ⊢
    split at h
    · cases h
    · next hc => rw [if_neg hc, ih h]

theorem eq_of_cutValue_some {value : List Char} (h : (cutValue cs).2 = some value) :
    cs = (cutValue cs).1 ++ '=' :: value := by
  induction cs with
  | nil => cases h
  | cons c cs ih =>
    rw [cutValue] at h ⊢
    split at h
    · next hc =>
      cases h
      rw [if_pos hc, hc]
      rfl
    · next hc =>
      rw [if_neg hc, List.cons_append, ← ih h]

theorem LongName.ne_nil (h : LongName cs items e) : cs ≠ [] := by
  cases h with
  | output value => simp
  | _ => decide

theorem readName_of_longName (h : LongName cs items e) (g : Given) :
    readName g cs = (giveAll g items).map fun g => e.step g := by
  cases h with
  | dump => rw [giveAll_singleton]; rfl
  | symbols => rw [giveAll_singleton]; rfl
  | help => rfl
  | version => rfl
  | waiting => rfl
  | output value => rw [giveAll_singleton]; rfl

theorem exists_longName {g : Given} {st : Step} (h : readName g cs = some st) :
    ∃ items e, LongName cs items e := by
  have hname : ∀ {text : String}, String.ofList (cutValue cs).1 = text → (cutValue cs).2 = none →
      cs = text.toList := by
    rintro text rfl hnone
    rw [String.toList_ofList, eq_of_cutValue_none hnone]
  rw [readName] at h
  split at h
  · next ht hv =>
    rw [hname ht hv]
    exact ⟨_, _, .dump⟩
  · next ht hv =>
    rw [hname ht hv]
    exact ⟨_, _, .symbols⟩
  · next ht hv =>
    rw [hname ht hv]
    exact ⟨_, _, .help⟩
  · next ht hv =>
    rw [hname ht hv]
    exact ⟨_, _, .version⟩
  · next ht hv =>
    rw [hname ht hv]
    exact ⟨_, _, .waiting⟩
  · next value ht hv =>
    rw [eq_of_cutValue_some hv, ← String.toList_ofList (l := (cutValue cs).1), ht]
    exact ⟨_, _, .output value⟩
  · cases h

end

section
variable {argument : String} {items : List Item} {e : Ending}

theorem isOption_iff {cs : List Char} : isOption cs ↔ ∃ c ds, cs = '-' :: c :: ds := by
  rw [isOption.eq_def]
  split
  · next c ds => exact iff_of_true rfl ⟨c, ds, rfl⟩
  · next h =>
    refine iff_of_false Bool.false_ne_true ?_
    rintro ⟨c, ds, rfl⟩
    exact h c ds rfl

theorem readOne_of_argument (h : Argument argument items e) (g : Given) :
    readOne g argument = (giveAll g items).map fun g => e.step g := by
  cases h with
  | input h =>
    rw [readOne, giveAll_singleton]
    split
    · next hcs => exact absurd (isOption_iff.mpr ⟨_, _, hcs⟩) h
    · next hcs => exact absurd (isOption_iff.mpr ⟨_, _, hcs⟩) h
    · rfl
  | letters ha hc h =>
    rw [readOne, ha]
    split
    · next heq => exact absurd (List.cons.inj (List.cons.inj heq).2).1 hc
    · next heq =>
      cases heq
      exact readLetters_of_letters h g
    · next hletters => exact absurd rfl (hletters _ _)
  | name ha h =>
    rw [readOne, ha]
    exact readName_of_longName h g

theorem exists_argument {g : Given} {st : Step} (h : readOne g argument = some st) :
    ∃ items e, Argument argument items e := by
  rw [readOne] at h
  split at h
  · next cs ha =>
    obtain ⟨items, e, hn⟩ := exists_longName h
    exact ⟨items, e, .name ha hn⟩
  · next c cs hc ha =>
    obtain ⟨items, e, hl⟩ := exists_letters h
    exact ⟨items, e, .letters ha hc hl⟩
  · next hname hletters =>
    refine ⟨_, _, .input fun ho => ?_⟩
    obtain ⟨c, cs, ha⟩ := isOption_iff.mp ho
    exact hletters c cs ha

/-- two dashes alone are no option -/
theorem Argument.ne_dashes (h : Argument argument items e) : argument ≠ "--" := by
  rintro rfl
  cases h with
  | input h => exact h rfl
  | letters ha hc h => exact hc (List.cons.inj (List.cons.inj ha).2).1.symm
  | name ha h => exact h.ne_nil (List.cons.inj (List.cons.inj ha).2).2.symm

end

/-! ## the whole line -/

/-- what the arguments give, and the answer if they ask for one -/
inductive Asks : List String → List Item → Option Answer → Prop
  | nil : Asks [] [] none
  | next {argument : String} {items : List Item} {rest : List String} {items' : List Item}
      {answer : Option Answer} (h : Argument argument items .next) (hr : Asks rest items' answer) :
      Asks (argument :: rest) (items ++ items') answer
  | output {argument path : String} {items : List Item} {rest : List String} {items' : List Item}
      {answer : Option Answer} (h : Argument argument items .output)
      (hp : ¬ isOption path.toList) (hr : Asks rest items' answer) :
      Asks (argument :: path :: rest) (items ++ .output path :: items') answer
  | answer {argument : String} {items : List Item} {a : Answer}
      (h : Argument argument items (.answer a)) (rest : List String) :
      Asks (argument :: rest) items (some a)
  | inputs (paths : List String) : Asks ("--" :: paths) (paths.map .input) none

theorem readInputs_eq (g : Given) (paths : List String) :
    readInputs g paths = (giveAll g (paths.map .input)).map fun g => .assemble g.options := by
  induction paths generalizing g with
  | nil => rfl
  | cons path paths ih =>
    rw [readInputs, List.map_cons, giveAll_cons, Option.map_bind]
    simp only [ih]
    rfl

section
variable {arguments : List String} {items : List Item} {answer : Option Answer}

theorem readAll_of_asks (h : Asks arguments items answer) (g : Given) :
    readAll g false arguments =
      (giveAll g items).map fun g => answer.elim (.assemble g.options) Answer.request := by
  induction h generalizing g with
  | nil => rfl
  | @next argument items rest items' answer h hr ih =>
    rw [readAll, if_neg Bool.false_ne_true, if_neg h.ne_dashes, readOne_of_argument h,
      giveAll_append]
    cases giveAll g items with
    | none => rfl
    | some g => exact ih g
  | @output argument path items rest items' answer h hp hr ih =>
    rw [readAll, if_neg Bool.false_ne_true, if_neg h.ne_dashes, readOne_of_argument h,
      giveAll_append]
    cases giveAll g items with
    | none => rfl
    | some g =>
      show readAll g true (path :: rest) = _
      rw [readAll, if_pos rfl, if_neg hp, Option.bind_some, giveAll_cons, Option.map_bind]
      simp only [ih]
      rfl
  | @answer argument items a h rest =>
    rw [readAll, if_neg Bool.false_ne_true, if_neg h.ne_dashes, readOne_of_argument h]
    cases giveAll g items <;> rfl
  | inputs paths =>
    rw [readAll, if_neg Bool.false_ne_true, if_pos rfl]
    exact readInputs_eq g paths

/-- a line read while the output is awaited starts with its path -/
theorem exists_asks (arguments : List String) (g : Given) (r : Request) :
    (readAll g false arguments = some r → ∃ items answer, Asks arguments items answer) ∧
    (readAll g true arguments = some r → ∃ path rest, arguments = path :: rest ∧
      ¬ isOption path.toList ∧ ∃ items answer, Asks rest items answer) := by
  induction arguments generalizing g with
  | nil => exact ⟨fun _ => ⟨_, _, .nil⟩, fun h => by cases h⟩
  | cons argument rest ih =>
    constructor
    · intro h
      rw [readAll, if_neg Bool.false_ne_true] at h
      split at h
      · next hdashes =>
        rw [hdashes]
        exact ⟨_, _, .inputs rest⟩
      · cases hone : readOne g argument with
        | none =>
          rw [hone] at h
          cases h
        | some st =>
          obtain ⟨items, e, ha⟩ := exists_argument hone
          rw [readOne_of_argument ha g] at hone
          obtain ⟨g', hg, rfl⟩ := Option.map_eq_some_iff.mp hone
          rw [readOne_of_argument ha g, hg] at h
          cases e with
          | next =>
            obtain ⟨items', answer, hr⟩ := (ih g').1 h
            exact ⟨_, _, .next ha hr⟩
          | output =>
            obtain ⟨path, rest, rfl, hp, items', answer, hr⟩ := (ih g').2 h
            exact ⟨_, _, .output ha hp hr⟩
          | answer a => exact ⟨_, _, .answer ha rest⟩
    · intro h
      rw [readAll, if_pos rfl] at h
      split at h
      · cases h
      · next hp =>
        obtain ⟨g', -, h⟩ := Option.bind_eq_some_iff.mp h
        exact ⟨argument, rest, rfl, hp, (ih g').1 h⟩

end

end Arguments

open Arguments

section
variable {arguments : List String} {items : List Item} {answer : Option Answer}

/-- **A command line is answered by what its arguments give.** -/
theorem Arguments.Asks.parseArguments_eq (h : Asks arguments items answer) :
    parseArguments arguments =
      if (items.map Item.slot).Nodup then
        some (answer.elim (.assemble (requested items)) Answer.request)
      else none := by
  rw [parseArguments, readAll_of_asks h]
  split
  · next hn =>
    have hgive : giveAll {} items = some (Given.join {} items) := by
      refine giveAll_eq_some_iff.mpr ⟨hn, fun item _ => ?_, rfl⟩
      cases item <;> exact Bool.false_ne_true
    rw [hgive, Option.map_some, Given.options_join_empty]
  · next hn =>
    have hgive : giveAll {} items = none := by
      rw [Option.eq_none_iff_forall_ne_some]
      intro g hg
      exact hn (giveAll_eq_some_iff.mp hg).1
    rw [hgive, Option.map_none]

theorem parseArguments_eq_some_iff {r : Request} :
    parseArguments arguments = some r ↔
      ∃ items answer, Asks arguments items answer ∧ (items.map Item.slot).Nodup ∧
        r = answer.elim (.assemble (requested items)) Answer.request := by
  constructor
  · intro h
    obtain ⟨items, answer, ha⟩ := (exists_asks arguments {} r).1 h
    rw [ha.parseArguments_eq] at h
    split at h
    · next hn =>
      cases h
      exact ⟨items, answer, ha, hn, rfl⟩
    · cases h
  · rintro ⟨items, answer, ha, hn, rfl⟩
    rw [ha.parseArguments_eq, if_pos hn]

example : parseArguments ["-do", "a.hack", "--", "-s"] =
    some (.assemble ⟨"-s", some "a.hack", true, false⟩) := rfl

/-- a mistake ends a run with code 2, a request for an answer with its text -/
theorem Arguments.Asks.options_eq (h : Asks arguments items answer) :
    options arguments =
      if (items.map Item.slot).Nodup then
        answer.elim (.ok (requested items)) fun a => .error ⟨0, a.text⟩
      else .error ⟨2, ""⟩ := by
  rw [options, h.parseArguments_eq]
  by_cases hn : (items.map Item.slot).Nodup
  · rw [if_pos hn, if_pos hn]
    cases answer with
    | none => rfl
    | some a => cases a <;> rfl
  · rw [if_neg hn, if_neg hn]

/-- only a line without a mistake, and without a request for an answer, has a program assembled -/
theorem options_eq_ok_iff {o : Options} :
    options arguments = .ok o ↔
      ∃ items, Asks arguments items none ∧ (items.map Item.slot).Nodup ∧ o = requested items := by
  constructor
  · intro h
    cases hp : parseArguments arguments with
    | none =>
      rw [options, hp] at h
      cases h
    | some r =>
      obtain ⟨items, answer, ha, hn, -⟩ := parseArguments_eq_some_iff.mp hp
      rw [ha.options_eq, if_pos hn] at h
      cases answer with
      | none =>
        cases h
        exact ⟨items, ha, hn, rfl⟩
      | some a => cases h
  · rintro ⟨items, ha, hn, rfl⟩
    rw [ha.options_eq, if_pos hn]
    rfl

end

end HackAssembler
