import HackAssembler.Proofs.Runs

/-!
# The name of the output

A path is a name in a directory, and may end in slashes and `/.` that are no part of the name.  The
name is cut at its last dot, unless that dot starts it.

* `PathForm`, `NameCut`   the parts of a path and of a name, and `exists_pathForm`,
                          `exists_nameCut`: there always are such parts;
* `DefaultOutput`         the path beside the input, told from these parts;
* `PathForm.take`         taking the extension off the end of a path leaves its stem;
* `defaultOutput_eq_iff`, `outputPath_eq_iff`   the output of a run, for every input and options;
* `run_writes_output`     the words go there, and a source that is elsewhere is left alone.
-/

namespace HackAssembler

/-! ## the parts of a path -/

/-- slashes, and dots alone behind a slash -/
inductive IsTail : List Char → Prop
  | nil : IsTail []
  | slash {tail : List Char} (h : IsTail tail) : IsTail (tail ++ ['/'])
  | dot {tail : List Char} (h : IsTail tail) : IsTail (tail ++ ['/', '.'])

/-- `path` is `name` in `directory`, and then `tail` -/
structure PathForm (path directory name tail : List Char) : Prop where
  eq : path = directory ++ name ++ tail
  directory_end : ∀ c ∈ directory.getLast?, c = '/'
  slash_not_mem : '/' ∉ name
  isTail : IsTail tail

/-- `name` is `base` and `ending`, cut at its last dot; the first character is no cut -/
inductive NameCut : List Char → List Char → List Char → Prop
  | whole {name : List Char} (h : '.' ∉ name.tail) : NameCut name name []
  | cut {base ending : List Char} (hb : base ≠ []) (he : '.' ∉ ending) :
      NameCut (base ++ '.' :: ending) base ending

/-- the output beside the input `path` -/
inductive DefaultOutput : List Char → List Char → Prop
  | hack {path directory name tail base ending : List Char} (h : PathForm path directory name tail)
      (hn : isFileName name) (hc : NameCut name base ending) (hb : tail ≠ [] ∨ base ≠ ['.']) :
      DefaultOutput path (directory ++ base ++ ".hack".toList)
  /-- without its extension such a name is no name of a file -/
  | dots {path directory ending : List Char} (h : PathForm path directory ('.' :: '.' :: ending) [])
      (he : '.' ∉ ending) (hne : ending ≠ []) : DefaultOutput path (directory ++ ['.', '.'])
  | unnamed {path : List Char}
      (h : ∀ directory name tail, PathForm path directory name tail → ¬ isFileName name) :
      DefaultOutput path path

theorem IsTail.of_prefix {tail front : List Char} (h : IsTail tail) (hp : front <+: tail) :
    IsTail front := by
  induction h with
  | nil =>
    rw [List.prefix_nil.mp hp]
    exact .nil
  | slash h ih =>
    rcases List.prefix_concat_iff.mp hp with rfl | hp
    · exact .slash h
    · exact ih hp
  | @dot tail h ih =>
    have hsplit : tail ++ ['/', '.'] = tail ++ ['/'] ++ ['.'] := by simp
    rw [hsplit] at hp
    rcases List.prefix_concat_iff.mp hp with rfl | hp
    · rw [← hsplit]
      exact .dot h
    · rcases List.prefix_concat_iff.mp hp with rfl | hp
      · exact .slash h
      · exact ih hp

theorem isFileName_iff {name : List Char} :
    isFileName name ↔ name ≠ [] ∧ name ≠ ['.'] ∧ name ≠ ['.', '.'] :=
  decide_eq_true_iff

theorem isFileName_reverse (name : List Char) : isFileName name.reverse = isFileName name := by
  simp [isFileName, List.reverse_eq_iff]

theorem ne_of_mem_reverse {d : Char} {cs : List Char} (h : d ∉ cs) :
    ∀ c ∈ cs.reverse, (c ≠ d : Bool) := by
  intro c hc
  refine decide_eq_true fun e => h ?_
  rw [← e]
  exact List.mem_reverse.mp hc

/-! ## the end of a path -/

section
variable {path directory name tail : List Char}

theorem IsTail.dropTail_reverse (h : IsTail tail) (cs : List Char) :
    dropTail (tail.reverse ++ cs) = dropTail cs := by
  induction h with
  | nil => rfl
  | @slash tail h ih =>
    rw [List.reverse_append]
    show dropTail (tail.reverse ++ cs) = _
    exact ih
  | @dot tail h ih =>
    rw [List.reverse_append]
    show dropTail (tail.reverse ++ cs) = _
    exact ih

theorem exists_isTail (cs : List Char) :
    ∃ tail, IsTail tail ∧ cs = tail.reverse ++ dropTail cs := by
  fun_induction dropTail cs with
  | case1 cs ih =>
    obtain ⟨tail, h, e⟩ := ih
    exact ⟨_, .slash h, by simpa using e⟩
  | case2 cs ih =>
    obtain ⟨tail, h, e⟩ := ih
    exact ⟨_, .dot h, by simpa using e⟩
  | case3 cs => exact ⟨[], .nil, rfl⟩

/-- a name ends no tail, unless it is a dot -/
theorem dropTail_eq_self {name : List Char} (hne : name ≠ []) (hdot : name ≠ ['.'])
    (hs : '/' ∉ name) (cs : List Char) : dropTail (name ++ cs) = name ++ cs := by
  obtain ⟨c, name, rfl⟩ := List.exists_cons_of_ne_nil hne
  rw [List.mem_cons, not_or] at hs
  have hne : name = [] → c ≠ '.' := by
    rintro rfl rfl
    exact hdot rfl
  have hslash : ∀ ds, name ++ cs = '/' :: ds → c ≠ '.' := by
    intro ds e
    cases name with
    | nil => exact hne rfl
    | cons d name =>
      have hd : d = '/' := (List.cons.inj e).1
      rw [hd] at hs
      exact absurd List.mem_cons_self hs.2
  rw [List.cons_append, dropTail]
  · intro ds e
    exact hs.1 (List.cons.inj e).1.symm
  · intro ds e
    obtain ⟨hc, hds⟩ := List.cons.inj e
    exact hslash ds hds hc

theorem PathForm.reverse_eq (h : PathForm path directory name tail) :
    path.reverse = tail.reverse ++ (name.reverse ++ directory.reverse) := by
  rw [h.eq, List.reverse_append, List.reverse_append]

namespace PathForm

variable (h : PathForm path directory name tail) (hne : name ≠ []) (hdot : name ≠ ['.'])
include h

theorem directory_reverse : directory.reverse = [] ∨ ∃ ds, directory.reverse = '/' :: ds := by
  cases hd : directory.reverse with
  | nil => exact .inl rfl
  | cons d ds =>
    have hlast : d ∈ directory.getLast? := by
      rw [← List.head?_reverse, hd]
      rfl
    exact .inr ⟨ds, by rw [h.directory_end d hlast]⟩

include hne hdot

theorem dropTail_eq : dropTail path.reverse = name.reverse ++ directory.reverse := by
  rw [h.reverse_eq, h.isTail.dropTail_reverse]
  refine dropTail_eq_self (mt List.reverse_eq_nil_iff.mp hne) ?_ ?_ _
  · intro e
    exact hdot (List.reverse_eq_iff.mp e)
  · exact mt List.mem_reverse.mp h.slash_not_mem

theorem lastName_eq : lastName path.reverse = name.reverse := by
  rw [lastName, h.dropTail_eq hne hdot,
    List.takeWhile_append_of_pos (ne_of_mem_reverse h.slash_not_mem)]
  rcases h.directory_reverse with e | ⟨ds, e⟩ <;> simp [e]

theorem beforeName_eq : beforeName path.reverse = directory.reverse := by
  rw [beforeName, h.dropTail_eq hne hdot,
    List.dropWhile_append_of_pos (ne_of_mem_reverse h.slash_not_mem)]
  rcases h.directory_reverse with e | ⟨ds, e⟩ <;> simp [e]

end PathForm

theorem exists_pathForm (path : List Char) :
    ∃ tail, PathForm path (beforeName path.reverse).reverse (lastName path.reverse).reverse tail := by
  obtain ⟨tail, ht, e⟩ := exists_isTail path.reverse
  refine ⟨tail, ?_, ?_, ?_, ht⟩
  · rw [← List.reverse_append, lastName, beforeName, List.takeWhile_append_dropWhile]
    have e := congrArg List.reverse e
    rwa [List.reverse_reverse, List.reverse_append, List.reverse_reverse] at e
  · intro c hc
    rw [List.getLast?_reverse] at hc
    have hnot := List.head?_dropWhile_not (fun c : Char => (c ≠ '/' : Bool)) (dropTail path.reverse)
    have hc : (List.dropWhile (fun c : Char => (c ≠ '/' : Bool)) (dropTail path.reverse)).head? =
        some c := hc
    rw [hc] at hnot
    simpa using hnot
  · intro hs
    have hall := List.all_eq_true.mp (List.all_takeWhile (p := fun c : Char => (c ≠ '/' : Bool))
      (l := dropTail path.reverse)) '/' (List.mem_reverse.mp hs)
    simp at hall

end

/-! ## the cut of a name -/

section
variable {name base ending : List Char}

theorem exists_nameCut (name : List Char) : ∃ base ending, NameCut name base ending := by
  by_cases hd : '.' ∈ name.tail
  · cases name with
    | nil => cases hd
    | cons c cs =>
      obtain ⟨last, front, e, hl⟩ := List.eq_append_cons_of_mem (List.mem_reverse.mpr hd)
      have e : cs = front.reverse ++ '.' :: last.reverse := by
        simpa using congrArg List.reverse e
      refine ⟨c :: front.reverse, last.reverse, ?_⟩
      rw [e]
      exact .cut (List.cons_ne_nil _ _) (mt List.mem_reverse.mp hl)
  · exact ⟨name, [], .whole hd⟩

theorem NameCut.cutExtension_eq (h : NameCut name base ending) :
    cutExtension name.reverse = (base.reverse, ending.reverse) := by
  cases h with
  | whole h =>
    cases name with
    | nil => rfl
    | cons c cs =>
      have h : '.' ∉ cs := h
      have hdrop : (c :: cs).reverse.dropWhile (· ≠ '.') = [c].dropWhile (· ≠ '.') := by
        rw [List.reverse_cons, List.dropWhile_append_of_pos (ne_of_mem_reverse h)]
      rw [cutExtension, hdrop]
      by_cases hc : c = '.' <;> simp [hc]
  | cut hb he =>
    obtain ⟨c, cs, hcs⟩ := List.exists_cons_of_ne_nil (mt List.reverse_eq_nil_iff.mp hb)
    have hrev : (base ++ '.' :: ending).reverse = ending.reverse ++ '.' :: c :: cs := by
      rw [List.reverse_append, List.reverse_cons, hcs]
      simp
    rw [cutExtension, hrev, List.dropWhile_append_of_pos (ne_of_mem_reverse he),
      List.takeWhile_append_of_pos (ne_of_mem_reverse he), hcs]
    simp

end

/-! ## the output beside an input -/

section
variable {path directory name tail base ending : List Char}

theorem PathForm.withHack_eq (h : PathForm path directory name tail) (hn : isFileName name)
    (hc : NameCut name base ending) :
    withHack path.reverse = (directory ++ base ++ ".hack".toList).reverse := by
  obtain ⟨hne, hdot, -⟩ := isFileName_iff.mp hn
  rw [withHack, h.lastName_eq hne hdot, h.beforeName_eq hne hdot, isFileName_reverse, if_pos hn,
    stem, hc.cutExtension_eq]
  simp

theorem isFileName_of_cut (hne : base ≠ []) (h : base ≠ ['.'] ∨ ending ≠ []) :
    isFileName (base ++ '.' :: ending) := by
  obtain ⟨b, bs, rfl⟩ := List.exists_cons_of_ne_nil hne
  refine isFileName_iff.mpr ⟨by simp, by simp, fun e => ?_⟩
  cases bs with
  | nil =>
    obtain ⟨rfl, rfl⟩ : b = '.' ∧ ending = [] := by simpa using e
    exact h.elim (fun h => h rfl) (fun h => h rfl)
  | cons d ds => simp at e

/-- an extension of `n` characters is taken off by the last `n` characters of the path, which leaves
a path of the same stem, whatever stands behind the name -/
theorem PathForm.take (h : PathForm path directory name tail) (hn : isFileName name)
    (hc : NameCut name base ending) (hb : tail ≠ [] ∨ base ≠ ['.']) :
    ∃ name' ending' tail',
      PathForm (path.take (path.length - ending.length)) directory name' tail' ∧
      isFileName name' ∧ NameCut name' base ending' := by
  cases hc with
  | whole hd =>
    refine ⟨name, [], tail, ?_, hn, .whole hd⟩
    rwa [List.length_nil, Nat.sub_zero, List.take_length]
  | cut hne he =>
    by_cases hle : ending.length ≤ tail.length
    -- what is taken off ends behind the name
    · have hlen : path.length - ending.length =
          (directory ++ (base ++ '.' :: ending)).length + (tail.length - ending.length) := by
        rw [h.eq, List.length_append]
        omega
      refine ⟨_, ending, tail.take (tail.length - ending.length), ⟨?_, h.directory_end,
        h.slash_not_mem, h.isTail.of_prefix (List.take_prefix ..)⟩, hn, .cut hne he⟩
      rw [hlen, h.eq, List.take_length_add_append]
    -- as much of the extension is left as stood behind the name
    · have hlen : path.length - ending.length =
          (directory ++ (base ++ ['.'])).length + tail.length := by
        rw [h.eq]
        simp only [List.length_append, List.length_cons, List.length_nil]
        omega
      have hpath : path = directory ++ (base ++ ['.']) ++ (ending ++ tail) := by
        rw [h.eq]
        simp
      have hending : ending.take tail.length <+: ending := List.take_prefix ..
      have hname : base ++ '.' :: ending.take tail.length <+: base ++ '.' :: ending :=
        (List.prefix_append_right_inj base).mpr (List.cons_prefix_cons.mpr ⟨rfl, hending⟩)
      have hlong : base ≠ ['.'] ∨ ending.take tail.length ≠ [] := by
        refine hb.symm.imp_right fun ht e => ?_
        rcases List.take_eq_nil_iff.mp e with e | rfl
        · exact ht (List.length_eq_zero_iff.mp e)
        · exact hle (Nat.zero_le _)
      refine ⟨_, ending.take tail.length, [], ⟨?_, h.directory_end,
        fun hs => h.slash_not_mem (hname.subset hs), .nil⟩, isFileName_of_cut hne hlong,
        .cut hne fun hm => he (hending.subset hm)⟩
      rw [hlen, hpath, List.take_length_add_append, List.take_append_of_le_length (by omega)]
      simp

theorem defaultOutput_ofList (path : List Char) :
    defaultOutput (String.ofList path) =
      String.ofList (withHack
        (path.take (path.length - (extension (lastName path.reverse)).length)).reverse).reverse := by
  rw [defaultOutput, String.toList_ofList, List.drop_reverse]

theorem extension_eq (hn : isFileName name) (hc : NameCut name base ending) :
    extension name.reverse = ending.reverse := by
  rw [extension, isFileName_reverse, if_pos hn, hc.cutExtension_eq]

/-- a path whose last name is no name of a file is left alone -/
theorem withHack_eq_self (h : ¬ isFileName (lastName path.reverse)) :
    withHack path.reverse = path.reverse := by
  rw [withHack, if_neg h]

theorem DefaultOutput.defaultOutput_eq {output : List Char} (h : DefaultOutput path output) :
    defaultOutput (String.ofList path) = String.ofList output := by
  rw [defaultOutput_ofList]
  cases h with
  | hack h hn hc hb =>
    obtain ⟨hne, hdot, -⟩ := isFileName_iff.mp hn
    obtain ⟨name', ending', tail', h', hn', hc'⟩ := h.take hn hc hb
    rw [h.lastName_eq hne hdot, extension_eq hn hc, List.length_reverse, h'.withHack_eq hn' hc',
      List.reverse_reverse]
  | @dots directory ending h he hne =>
    have hstem : ['.'] ≠ ([] : List Char) := List.cons_ne_nil _ _
    have hn : isFileName (['.'] ++ '.' :: ending) := isFileName_of_cut hstem (.inr hne)
    have hname : lastName path.reverse = (['.'] ++ '.' :: ending).reverse :=
      h.lastName_eq (by simp) (by simp)
    have hpath : path = directory ++ ['.', '.'] ++ ending := by
      rw [h.eq]
      simp
    have hleft : PathForm (directory ++ ['.', '.']) directory ['.', '.'] [] :=
      ⟨(List.append_nil _).symm, h.directory_end, by simp, .nil⟩
    have hdots : ¬ isFileName (lastName (directory ++ ['.', '.']).reverse) := by
      rw [hleft.lastName_eq (by simp) (by simp)]
      decide
    rw [hname, extension_eq hn (.cut hstem he), List.length_reverse, hpath, List.length_append,
      Nat.add_sub_cancel, List.take_append_length, withHack_eq_self hdots, List.reverse_reverse]
  | unnamed h =>
    obtain ⟨tail, hform⟩ := exists_pathForm path
    have hn : ¬ isFileName (lastName path.reverse) := by
      rw [← isFileName_reverse]
      exact h _ _ _ hform
    rw [extension, if_neg hn, List.length_nil, Nat.sub_zero, List.take_length, withHack_eq_self hn,
      List.reverse_reverse]

theorem exists_defaultOutput (path : List Char) : ∃ output, DefaultOutput path output := by
  by_cases hnamed : ∃ directory name tail, PathForm path directory name tail ∧ isFileName name
  · obtain ⟨directory, name, tail, h, hn⟩ := hnamed
    obtain ⟨base, ending, hc⟩ := exists_nameCut name
    by_cases hb : tail ≠ [] ∨ base ≠ ['.']
    · exact ⟨_, .hack h hn hc hb⟩
    · obtain ⟨rfl, rfl⟩ : tail = [] ∧ base = ['.'] := by
        simpa only [not_or, Classical.not_not] using hb
      obtain ⟨-, hdot, hdots⟩ := isFileName_iff.mp hn
      cases hc with
      | whole hd => exact absurd rfl hdot
      | @cut _ ending hne he =>
        have hending : ending ≠ [] := by
          rintro rfl
          exact hdots rfl
        exact ⟨_, .dots h he hending⟩
  · refine ⟨path, .unnamed fun directory name tail h hn => ?_⟩
    exact hnamed ⟨directory, name, tail, h, hn⟩

/-- **The output stands beside the input**, for every path. -/
theorem defaultOutput_eq_iff {input output : String} :
    defaultOutput input = output ↔ DefaultOutput input.toList output.toList := by
  constructor
  · rintro rfl
    obtain ⟨output, h⟩ := exists_defaultOutput input.toList
    have he := h.defaultOutput_eq
    rw [String.ofList_toList] at he
    rwa [he, String.toList_ofList]
  · intro h
    have he := h.defaultOutput_eq
    rwa [String.ofList_toList, String.ofList_toList] at he

end

example : defaultOutput "sub.d/prog" = "sub.d/prog.hack" ∧ defaultOutput "..a/" = "..hack" :=
  ⟨rfl, rfl⟩

/-! ## runs -/

theorem Options.outputPath_eq_iff {o : Options} {output : String} :
    o.outputPath = output ↔
      o.output = some output ∨ o.output = none ∧ DefaultOutput o.input.toList output.toList := by
  rw [Options.outputPath]
  cases o.output with
  | none => simp [defaultOutput_eq_iff]
  | some path => simp

/-- **The words of a run go to its output**: the path it is given, or the one beside its input.  The
source stays what it was, unless the output leads to the same place. -/
theorem run_writes_output {arguments : List String} {o : Options} (h : options arguments = .ok o)
    {output : String} (hout : o.output = some output ∨
      o.output = none ∧ DefaultOutput o.input.toList output.toList)
    {fs : FileSystem} {text : String} (ht : fs.Holds o.input text) {words : List String}
    (hw : assembleText text = .ok words) (hwrite : fs.Writable output (wordLines words)) :
    (run arguments fs).1.exitCode = 0 ∧
      fs.Written output (wordLines words) (run arguments fs).2 ∧
      (fs.resolve? o.input ≠ fs.resolve? output → (run arguments fs).2.Holds o.input text) := by
  obtain ⟨written, he, hwritten⟩ := hwrite.exists_write
  have heffect := run_eq_effect h fs
  rw [Options.outputPath_eq_iff.mpr hout, effect_of_assembled ht hw, he] at heffect
  obtain ⟨hcode, hfs⟩ := Prod.mk.inj heffect
  rw [hfs]
  exact ⟨hcode, hwritten, fun hne => (hwritten.read_of_ne hne).trans ht⟩

/-- a program whose words go beside it -/
theorem run_writes_output_beside :
    let fs : FileSystem := ⟨[], fun place =>
      if place = [] then some .directory
      else if place = ["prog.asm"] then some (.file "@1\nD=A\n".toUTF8)
      else none⟩
    (run ["prog.asm"] fs).1.exitCode = 0 ∧
      (run ["prog.asm"] fs).2.Holds "prog.hack" "0000000000000001\n1110110000010000\n" ∧
      (run ["prog.asm"] fs).2.Holds "prog.asm" "@1\nD=A\n" := by
  intro fs
  have hoptions : options ["prog.asm"] = .ok ⟨"prog.asm", none, false, false⟩ := rfl
  have hbeside : DefaultOutput "prog.asm".toList "prog.hack".toList := defaultOutput_eq_iff.mp rfl
  have hsource : fs.resolve? "prog.asm" = some ["prog.asm"] := rfl
  have hplace : fs.resolve? "prog.hack" = some ["prog.hack"] := rfl
  have hnode : fs.nodeAt? "prog.asm" = some (.file "@1\nD=A\n".toUTF8) := rfl
  have hnew : fs.nodeAt? "prog.hack" = none := rfl
  have hwords : assembleText "@1\nD=A\n" = .ok ["0000000000000001", "1110110000010000"] := rfl
  obtain ⟨hcode, hwritten, hkept⟩ := run_writes_output hoptions (.inr ⟨rfl, hbeside⟩)
    (FileSystem.read_of_nodeAt? hnode) hwords ⟨_, hplace, .new⟩
  have hread := hwritten.read_eq (by simp [hnew])
  exact ⟨hcode, hread, hkept (by simp [hsource, hplace])⟩

end HackAssembler
