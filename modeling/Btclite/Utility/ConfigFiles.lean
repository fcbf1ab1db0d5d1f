import Btclite.Utility.HexTexts
import Mathlib.Data.List.AList
import Mathlib.Data.List.Induction

/-!
# Configuration files

`Args` and `Configuration::ParseFromFile` of `util.cpp`. The parser takes each line apart
as it should and passes over what the command line has set, but what it reads for any
other key it drops, as a function that is `const` has to.
-/

namespace ConfigFiles

open HexTexts

abbrev Text : Type := List Char

section Args

structure Args where
  mapArgs : AList (fun _ : Text => Text) := ∅
  mapMultiArgs : AList (fun _ : Text => List Text) := ∅

namespace Args

variable (args : Args)

def clear : Args := {}

def getArg (arg argDefault : Text) : Text := (args.mapArgs.lookup arg).getD argDefault

def getBoolArg (arg : Text) (argDefault : Bool) : Bool :=
  match args.mapArgs.lookup arg with
  | some argVal => !(argVal.isEmpty || argVal == ['0'])
  | none => argDefault

def getArgs (arg : Text) : List Text := (args.mapMultiArgs.lookup arg).getD []

def setArg (arg argVal : Text) : Args where
  mapArgs := args.mapArgs.insert arg argVal
  mapMultiArgs := args.mapMultiArgs.insert arg [argVal]

def setArgs (arg argVal : Text) : Args where
  mapArgs := args.mapArgs.insert arg argVal
  mapMultiArgs := args.mapMultiArgs.insert arg (args.getArgs arg ++ [argVal])

def isArgSet (arg : Text) : Bool := decide (arg ∈ args.mapArgs)

end Args

end Args

section Parsing

def globalOptionConf : Text := ['c', 'o', 'n', 'f']

/-- What `std::getline` returns one after the other. -/
def lines : Text → List Text
  | [] => []
  | c :: text =>
    if c = '\n' then [] :: lines text
    else
      match lines text with
      | [] => [[c]]
      | line :: rest => (c :: line) :: rest

def withoutSpace (line : Text) : Text := line.filter fun x => !isspace x

/-- The key and the value in the innermost branch of the loop, if a line comes to it. -/
def parseLine (args : Args) (line : Text) : Option (Text × Text) :=
  let line := withoutSpace line
  if line.head? = some '#' ∨ line = [] then none
  else
    match line.idxOf? '=' with
    | none => none
    | some pos =>
      let str := line.take pos
      if !args.isArgSet str && str != globalOptionConf then some (str, line.drop (pos + 1))
      else none

/-- `ParseFromFile`, with what the file holds if it can be read. -/
def parseFromFile (args : Args) (file : Option Text) : Bool × Args :=
  match file with
  | none => (true, args)
  | some text =>
    (true, (lines text).foldl (fun args line =>
      match parseLine args line with
      | none => args
      | some (_str, _strVal) => args) args)

end Parsing

section Property

/-- A line of the text is `key=value` when its white space is removed, and no comment. -/
def Writes (text key value : Text) : Prop :=
  ∃ line ∈ lines text, withoutSpace line = key ++ '=' :: value ∧ '=' ∉ key ∧
    (withoutSpace line).head? ≠ some '#'

/-- The settings of the text beside those of the command line, which go first. Of several
values that are written for one key any may stand. -/
structure Merged (text : Text) (args args' : Args) : Prop where
  written : ∀ key value, Writes text key value → args.isArgSet key = false →
    key ≠ globalOptionConf → args'.isArgSet key = true ∧
      ∃ value', Writes text key value' ∧ ∀ argDefault, args'.getArg key argDefault = value'
  kept : ∀ key, args.isArgSet key = true → args'.isArgSet key = true ∧
    (∀ argDefault, args'.getArg key argDefault = args.getArg key argDefault) ∧
    (∀ argDefault, args'.getBoolArg key argDefault = args.getBoolArg key argDefault) ∧
    args'.getArgs key = args.getArgs key

end Property

section Lines

variable {args : Args} {line key value text : Text}

/-- The first `=` ends the key. -/
theorem idxOf_key (h : '=' ∉ key) : (key ++ '=' :: value).idxOf? '=' = some key.length := by
  induction key with
  | nil => rfl
  | cons c key ih =>
    have hc : (c == '=') = false := beq_eq_false_iff_ne.mpr fun heq => h (heq ▸ List.mem_cons_self)
    have hkey : '=' ∉ key := fun hmem => h (List.mem_cons_of_mem _ hmem)
    rw [List.cons_append, List.idxOf?_cons, hc, ih hkey]
    rfl

/-- What is found before the first `=` and after it. -/
theorem split_of_idxOf {pos : Nat} (h : line.idxOf? '=' = some pos) :
    line = line.take pos ++ '=' :: line.drop (pos + 1) ∧ '=' ∉ line.take pos := by
  obtain ⟨hpos, hsign, hbefore⟩ := List.idxOf?_eq_some_iff.mp h
  constructor
  · rw [← hsign, List.getElem_cons_drop, List.take_append_drop]
  · intro hmem
    obtain ⟨i, hi, hget⟩ := List.mem_take_iff_getElem.mp hmem
    exact hbefore i (by omega) hget

/-- The parser takes a line apart into its key and value unless the command line or the name
of the key stands in the way. -/
theorem parseLine_eq_some_iff : parseLine args line = some (key, value) ↔
    (withoutSpace line = key ++ '=' :: value ∧ '=' ∉ key ∧
      (withoutSpace line).head? ≠ some '#') ∧
    args.isArgSet key = false ∧ key ≠ globalOptionConf := by
  rw [parseLine]
  constructor
  · intro h
    split_ifs at h with hskip
    rw [not_or] at hskip
    cases hpos : (withoutSpace line).idxOf? '=' with
    | none =>
      rw [hpos] at h
      cases h
    | some pos =>
      rw [hpos] at h
      dsimp only at h
      split_ifs at h with hfree
      cases h
      rw [Bool.and_eq_true, Bool.not_eq_true', bne_iff_ne] at hfree
      obtain ⟨hsplit, hkey⟩ := split_of_idxOf hpos
      exact ⟨⟨hsplit, hkey, hskip.1⟩, hfree⟩
  · rintro ⟨⟨hline, hkey, hcomment⟩, hunset, hconf⟩
    have hskip : ¬ ((withoutSpace line).head? = some '#' ∨ withoutSpace line = []) := by
      rintro (hhead | hempty)
      · exact hcomment hhead
      · simp [hline] at hempty
    have htake : (key ++ '=' :: value).take key.length = key := List.take_left
    have hdrop : (key ++ '=' :: value).drop (key.length + 1) = value := by
      rw [← List.drop_drop, List.drop_left]
      rfl
    rw [if_neg hskip, hline, idxOf_key hkey]
    simp only [htake, hdrop, hunset, Bool.not_false, Bool.true_and, bne_iff_ne, ne_eq, hconf,
      not_false_eq_true, if_true]

/-- The loop reads every setting it should. -/
theorem mem_parsed_iff (args : Args) (text key value : Text) :
    (key, value) ∈ (lines text).filterMap (parseLine args) ↔
      Writes text key value ∧ args.isArgSet key = false ∧ key ≠ globalOptionConf := by
  rw [List.mem_filterMap]
  constructor
  · rintro ⟨line, hline, hparse⟩
    obtain ⟨hwrites, hfree⟩ := parseLine_eq_some_iff.mp hparse
    exact ⟨⟨line, hline, hwrites⟩, hfree⟩
  · rintro ⟨⟨line, hline, hwrites⟩, hfree⟩
    exact ⟨line, hline, parseLine_eq_some_iff.mpr ⟨hwrites, hfree⟩⟩

/-- It does nothing with them. -/
theorem parseFromFile_eq (args : Args) (file : Option Text) :
    parseFromFile args file = (true, args) := by
  cases file with
  | none => rfl
  | some text =>
    rw [parseFromFile]
    congr 1
    induction lines text with
    | nil => rfl
    | cons line rest ih =>
      rw [List.foldl_cons]
      cases parseLine args line with
      | none => exact ih
      | some setting => exact ih

end Lines

section Settings

variable {args : Args} {settings : List (Text × Text)} {key arg : Text}

theorem isArgSet_iff (args : Args) (key : Text) :
    args.isArgSet key = true ↔ ∃ value, args.mapArgs.lookup key = some value := by
  rw [Args.isArgSet, decide_eq_true_iff, ← AList.lookup_isSome, Option.isSome_iff_exists]

theorem setArg_self (args : Args) (arg argVal : Text) :
    (args.setArg arg argVal).mapArgs.lookup arg = some argVal :=
  AList.lookup_insert _

theorem setArg_ne (h : key ≠ arg) (args : Args) (argVal : Text) :
    (args.setArg arg argVal).mapArgs.lookup key = args.mapArgs.lookup key ∧
      (args.setArg arg argVal).mapMultiArgs.lookup key = args.mapMultiArgs.lookup key :=
  ⟨AList.lookup_insert_ne h, AList.lookup_insert_ne h⟩

def setAll (settings : List (Text × Text)) (args : Args) : Args :=
  settings.foldl (fun args setting => args.setArg setting.1 setting.2) args

theorem setAll_of_not_mem (h : ∀ value, (key, value) ∉ settings) (args : Args) :
    (setAll settings args).mapArgs.lookup key = args.mapArgs.lookup key ∧
      (setAll settings args).mapMultiArgs.lookup key = args.mapMultiArgs.lookup key := by
  induction settings generalizing args with
  | nil => exact ⟨rfl, rfl⟩
  | cons setting settings ih =>
    have hne : key ≠ setting.1 := by
      rintro rfl
      exact h setting.2 List.mem_cons_self
    have hrest := ih (fun value hmem => h value (List.mem_cons_of_mem _ hmem))
      (args.setArg setting.1 setting.2)
    obtain ⟨hone, hmulti⟩ := setArg_ne hne args setting.2
    exact ⟨hrest.1.trans hone, hrest.2.trans hmulti⟩

/-- The last of the values that are set for a key stands. -/
theorem setAll_of_mem {value : Text} (h : (key, value) ∈ settings) (args : Args) :
    ∃ value', (key, value') ∈ settings ∧
      (setAll settings args).mapArgs.lookup key = some value' := by
  induction settings using List.reverseRecOn with
  | nil => cases h
  | append_singleton settings setting ih =>
    rw [setAll, List.foldl_concat]
    by_cases heq : key = setting.1
    · subst heq
      exact ⟨setting.2, List.mem_append_right _ List.mem_cons_self, setArg_self _ _ _⟩
    · have hmem : (key, value) ∈ settings := by
        rcases List.mem_append.mp h with hmem | hlast
        · exact hmem
        · exact absurd (congrArg Prod.fst (List.mem_singleton.mp hlast)) heq
      obtain ⟨value', hvalue', hlookup⟩ := ih hmem
      exact ⟨value', List.mem_append_left _ hvalue', (setArg_ne heq _ _).1.trans hlookup⟩

/-- Had the loop set what it reads, the file would be merged. -/
theorem merged_setAll (args : Args) (text : Text) :
    Merged text args (setAll ((lines text).filterMap (parseLine args)) args) where
  written key value hwrites hunset hconf := by
    have hparsed := (mem_parsed_iff args text key value).mpr ⟨hwrites, hunset, hconf⟩
    obtain ⟨value', hmem, hlookup⟩ := setAll_of_mem hparsed args
    have hwrites' := ((mem_parsed_iff args text key value').mp hmem).1
    refine ⟨(isArgSet_iff _ key).mpr ⟨value', hlookup⟩, value', hwrites', fun argDefault => ?_⟩
    rw [Args.getArg, hlookup, Option.getD_some]
  kept key hset := by
    have hfree : ∀ value, (key, value) ∉ (lines text).filterMap (parseLine args) := by
      intro value hmem
      have hunset := ((mem_parsed_iff args text key value).mp hmem).2.1
      rw [hset] at hunset
      cases hunset
    obtain ⟨hone, hmulti⟩ := setAll_of_not_mem hfree args
    refine ⟨?_, fun argDefault => ?_, fun argDefault => ?_, ?_⟩
    · rw [isArgSet_iff, hone, ← isArgSet_iff]
      exact hset
    · rw [Args.getArg, Args.getArg, hone]
    · rw [Args.getBoolArg, Args.getBoolArg, hone]
    · rw [Args.getArgs, Args.getArgs, hmulti]

end Settings

section Results

theorem merged_iff_parsed (args : Args) (text : Text) :
    Merged text args (parseFromFile args (some text)).2 ↔
      (lines text).filterMap (parseLine args) = [] := by
  rw [parseFromFile_eq, List.eq_nil_iff_forall_not_mem]
  constructor
  · rintro h ⟨key, value⟩ hparsed
    obtain ⟨hwrites, hunset, hconf⟩ := (mem_parsed_iff args text key value).mp hparsed
    have hset := (h.written key value hwrites hunset hconf).1
    rw [hunset] at hset
    cases hset
  · intro h
    refine ⟨fun key value hwrites hunset hconf => ?_, fun key hset =>
      ⟨hset, fun _ => rfl, fun _ => rfl, rfl⟩⟩
    exact absurd ((mem_parsed_iff args text key value).mpr ⟨hwrites, hunset, hconf⟩) (h _)

/-- The file is merged just when each key it writes is set on the command line already or is
`conf`. -/
theorem merged_iff (args : Args) (text : Text) :
    Merged text args (parseFromFile args (some text)).2 ↔
      ∀ key value, Writes text key value →
        args.isArgSet key = true ∨ key = globalOptionConf := by
  rw [merged_iff_parsed, List.eq_nil_iff_forall_not_mem]
  constructor
  · intro h key value hwrites
    by_contra hfree
    rw [not_or, Bool.not_eq_true] at hfree
    exact h (key, value) ((mem_parsed_iff args text key value).mpr ⟨hwrites, hfree⟩)
  · rintro h ⟨key, value⟩ hparsed
    obtain ⟨hwrites, hunset, hconf⟩ := (mem_parsed_iff args text key value).mp hparsed
    rcases h key value hwrites with hset | hname
    · rw [hunset] at hset
      cases hset
    · exact hconf hname

/-- A file with one setting beside no arguments. -/
theorem not_merged : ¬ ∀ (args : Args) (text : Text),
    Merged text args (parseFromFile args (some text)).2 := by
  intro h
  have hmerged := h {} ['d', 'e', 'b', 'u', 'g', '=', '1']
  rw [parseFromFile_eq] at hmerged
  have hset := (hmerged.written ['d', 'e', 'b', 'u', 'g'] ['1']
    ⟨_, List.mem_singleton.mpr rfl, by decide⟩ rfl (by decide)).1
  cases hset

end Results

end ConfigFiles
