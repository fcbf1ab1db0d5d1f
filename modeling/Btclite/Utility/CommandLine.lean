import Btclite.Utility.ConfigFiles
import Btclite.Utility.Decimals
import Mathlib.Data.Fintype.Basic
import Mathlib.Tactic.FinCases

/-!
# The command line

`FullNodeConfig::ParseParameters` with the checks of `Configuration`, and `InitArgs`, which
reads the same values again. What `getopt_long` finds, whether `inet_pton` takes a text and
what glog shows are parameters. A command line that was parsed is initialized without an
exception, and the log shows what it asks for.
-/

namespace CommandLine

open ConfigFiles Decimals Loops

section Source

inductive ErrorCode where
  | kSuccess
  | kShowHelp
  | kInvalidOption
  | kInvalidArg
deriving DecidableEq

structure Exception where
  code : ErrorCode
  what : Text

/-- The entries of `fullnode_options` for which `getopt_long` returns zero. -/
inductive LongOption where
  | debug
  | loglevel
  | datadir
  | conf
  | testnet
  | regtest
  | connect
deriving DecidableEq

namespace LongOption

def name : LongOption → Text
  | debug => ['d', 'e', 'b', 'u', 'g']
  | loglevel => ['l', 'o', 'g', 'l', 'e', 'v', 'e', 'l']
  | datadir => ['d', 'a', 't', 'a', 'd', 'i', 'r']
  | conf => globalOptionConf
  | testnet => ['t', 'e', 's', 't', 'n', 'e', 't']
  | regtest => ['r', 'e', 'g', 't', 'e', 's', 't']
  | connect => ['c', 'o', 'n', 'n', 'e', 'c', 't']

def hasArg : LongOption → Bool
  | testnet | regtest => false
  | _ => true

end LongOption

/-- What `getopt_long` returns, with the option and its `optarg` for a zero. -/
inductive Found where
  | option (o : LongOption) (optarg : Text)
  | help
  | other

/-- `Configuration::CheckOptions`. -/
def checkOptions : List Text → Except Exception Unit
  | [] => throw ⟨.kInvalidArg, "argument is null".toList⟩
  | _ :: argv =>
    argv.forM fun str =>
      if (2 < str.length && str.take 2 != ['-', '-']) || str == ['-', '-'] then
        throw ⟨.kInvalidOption, "invalid option '".toList ++ str ++ ['\'']⟩
      else pure ()

/-- `str_val`, which is empty for an option without an argument. -/
def LongOption.strVal (o : LongOption) (optarg : Text) : Text := if o.hasArg then optarg else []

/-- The loop over what `getopt_long` finds. -/
def readOptions : List Found → Args → Except Exception Args
  | [], args => pure args
  | .option o optarg :: found, args =>
    if o.hasArg && optarg.isEmpty then
      throw ⟨.kInvalidOption, "option '--".toList ++ o.name ++ "' requires an argument".toList⟩
    else readOptions found (args.setArgs o.name (o.strVal optarg))
  | .help :: _, _ => throw ⟨.kShowHelp, []⟩
  | .other :: found, args => readOptions found args

def logLevelMax : Nat := 6

def defaultLogLevel : Text := ['3']

/-- `map_module_`. -/
def mapModule : List (Text × BitVec 16) :=
  [(['0'], 0),
    (['n', 'e', 't'], 1 <<< 0),
    (['m', 'e', 'm', 'p', 'o', 'o', 'l'], 1 <<< 1),
    (['h', 't', 't', 'p'], 1 <<< 2),
    (['d', 'b'], 1 <<< 3),
    (['r', 'p', 'c'], 1 <<< 4),
    (['p', 'r', 'u', 'n', 'e'], 1 <<< 5),
    (['l', 'i', 'b', 'e', 'v', 'e', 'n', 't'], 1 <<< 6),
    (['c', 'o', 'i', 'n', 'd', 'b'], 1 <<< 7),
    (['1'], 0xffff)]

def mapIntoModule (str : Text) : BitVec 16 := (mapModule.lookup str).getD 0

/-- `std::stoi`, which throws when nothing is converted or the number is no `int`. -/
def stoi (str : Text) : Option Int :=
  let nptr := cStr str
  let c := strtol nptr
  if c.endp.length = nptr.length then none
  else if c.errno || c.n < -2 ^ 31 || 2 ^ 31 - 1 < c.n then none
  else some c.n

variable (args : Args)

def checkChain : Except Exception Unit :=
  if args.isArgSet LongOption.testnet.name && args.isArgSet LongOption.regtest.name then
    throw ⟨.kInvalidOption, "invalid combination of --testnet and --regtest".toList⟩
  else pure ()

def checkDebug : Except Exception Unit :=
  if args.isArgSet LongOption.debug.name then
    let argValues := args.getArgs LongOption.debug.name
    if argValues.all (· != ['0']) then
      match argValues.find? (mapIntoModule · == 0) with
      | some module => throw ⟨.kInvalidArg, "invalid module '".toList ++ module ++ ['\'']⟩
      | none => pure ()
    else pure ()
  else pure ()

def checkLoglevel : Except Exception Unit :=
  if args.isArgSet LongOption.loglevel.name then
    let argVal := args.getArg LongOption.loglevel.name defaultLogLevel
    let invalid : Exception := ⟨.kInvalidArg, "invalid loglevel '".toList ++ argVal ++ ['\'']⟩
    match stoi argVal with
    | none => throw invalid
    | some level => if level < 0 || (logLevelMax : Int) ≤ level then throw invalid else pure ()
  else pure ()

variable {A : Type} (inetPton : Text → Option A)

def checkArgsCustomized : Except Exception Unit :=
  if args.isArgSet LongOption.connect.name then
    match (args.getArgs LongOption.connect.name).find? (fun ip => (inetPton ip).isNone) with
    | some ip => throw ⟨.kInvalidArg, "invalid ip '".toList ++ ip ++ ['\'']⟩
    | none => pure ()
  else pure ()

/-- `Configuration::CheckArgs`, of a full node. -/
def checkArgs : Except Exception Unit := do
  checkChain args
  checkDebug args
  checkLoglevel args
  checkArgsCustomized args inetPton

/-- `FullNodeConfig::ParseParameters`. -/
def parseParameters (getoptLong : List Text → List Found) (argv : List Text) :
    Except Exception Args := do
  checkOptions argv
  let args ← readOptions (getoptLong argv) {}
  checkArgs args inetPton
  pure args

end Source

section Initializing

/-- Severities and verbose levels of the log, by `LOG_LEVEL_*`. -/
def mapLoglevel : List Nat := [3, 2, 1, 4, 5, 6]

def mapIntoGloglevel (loglevel : BitVec 8) : Option Nat := mapLoglevel[loglevel.toNat]?

inductive BtcNet where
  | kNone
  | kMainNet
  | kTestNet
  | kRegTest
deriving DecidableEq

/-- What `InitArgs` sets: the modules and flags of the log, and the network. `InitLogging` has
set the verbose level. -/
structure Settings where
  logModule : BitVec 32 := 0
  minloglevel : Nat := 0
  v : Nat := 4
  btcnet : BtcNet := .kNone

variable (args : Args)

def initDebug (s : Settings) : Settings :=
  if args.isArgSet LongOption.debug.name then
    let argValues := args.getArgs LongOption.debug.name
    if argValues.all (· != ['0']) then
      argValues.foldl (fun s module =>
        { s with logModule := s.logModule ||| (mapIntoModule module).setWidth 32 }) s
    else s
  else s

/-- None stands for an exception of `stoi` or a failed assertion. -/
def initLoglevel (s : Settings) : Option Settings :=
  if args.isArgSet LongOption.loglevel.name then do
    let level ← stoi (args.getArg LongOption.loglevel.name defaultLogLevel)
    let gloglevel ← mapIntoGloglevel (BitVec.ofInt 8 level)
    if level ≤ 2 then pure { s with minloglevel := gloglevel }
    else pure { s with minloglevel := 0, v := gloglevel }
  else pure s

def initNetwork : BtcNet :=
  if args.isArgSet LongOption.testnet.name then .kTestNet
  else if args.isArgSet LongOption.regtest.name then .kRegTest
  else .kMainNet

/-- `Configuration::InitArgs`, which returns true if it returns. -/
def initArgs : Option Settings := do
  let s ← initLoglevel args (initDebug args {})
  pure { s with btcnet := initNetwork args }

/-- What glog shows by its flags `minloglevel` and `v`: messages of `LOG(severity)`, and those of
`VLOG(verboselevel)`. -/
structure Glog where
  log : (minloglevel severity : Nat) → Bool
  vlog : (minloglevel v verboselevel : Nat) → Bool

/-- The flags are documented so: messages are logged at or above `minloglevel`, and of the verbose
ones, whose severity is 0, those at or below `v`. -/
structure Glog.Documented (g : Glog) : Prop where
  log : ∀ minloglevel severity, g.log minloglevel severity = decide (minloglevel ≤ severity)
  vlog : ∀ minloglevel v verboselevel, g.vlog minloglevel v verboselevel =
    (decide (verboselevel ≤ v) && decide (minloglevel ≤ 0))

/-- `BTCLOG`, by the level. -/
def Settings.btclog (g : Glog) (s : Settings) (level : Fin 6) : Bool :=
  let gloglevel := mapLoglevel.getD level 0
  if level.val ≤ 2 then g.log s.minloglevel gloglevel else g.vlog s.minloglevel s.v gloglevel

/-- `BTCLOG_MOD`. -/
def Settings.btclogMod (g : Glog) (s : Settings) (level : Fin 6) (module : BitVec 16) : Bool :=
  module.setWidth 32 &&& s.logModule != 0 && s.btclog g level

end Initializing

section Numbers

variable {str s rest : Text} {n m : Int}

/-- The text begins with the number, behind white space. -/
def Leads (str : Text) (n : Int) : Prop :=
  ∃ space num rest, cStr str = space ++ (num ++ rest) ∧ (∀ c ∈ space, HexTexts.isspace c = true) ∧
    Numeral num n ∧ rest.head?.any Char.isDigit = false

theorem takeWhile_isDigit (h : rest.head?.any Char.isDigit = false) :
    rest.takeWhile Char.isDigit = [] ∧ rest.dropWhile Char.isDigit = rest := by
  cases rest with
  | nil => exact ⟨rfl, rfl⟩
  | cons c rest =>
    have hc : ¬ c.isDigit = true := Bool.eq_false_iff.mp h
    exact ⟨List.takeWhile_cons_of_neg hc, List.dropWhile_cons_of_neg hc⟩

theorem head_dropWhile (p : Char → Bool) (s : Text) : (s.dropWhile p).head?.any p = false := by
  have h := List.head?_dropWhile_not p s
  cases hhead : (s.dropWhile p).head? with
  | none => rfl
  | some c =>
    rw [hhead] at h
    exact Bool.eq_false_iff.mpr (by simpa using h)

theorem stripSign_append {num : Text} (h : Numeral num n) (rest : Text) :
    stripSign (num ++ rest) = ((stripSign num).1, (stripSign num).2 ++ rest) := by
  cases h with
  | plain digits =>
    rw [stripSign_of_digits digits]
    obtain ⟨c, ds, rfl⟩ := List.exists_cons_of_ne_nil digits.1
    have hc := ne_of_isDigit (digits.2 c List.mem_cons_self)
    rw [stripSign]
    · rintro _ hminus
      exact hc.1 (List.cons.inj hminus).1
    · rintro _ hplus
      exact hc.2.1 (List.cons.inj hplus).1
  | plus digits => rfl
  | minus digits => rfl

/-- A number that a text begins with is what is scanned. -/
theorem scan_of_leads {space num : Text} (hspace : ∀ c ∈ space, HexTexts.isspace c = true)
    (hnum : Numeral num n) (hrest : rest.head?.any Char.isDigit = false) :
    ∃ negative m, scan (space ++ (num ++ rest)) = some (negative, m, rest) ∧
      n = if negative then -(m : Int) else m := by
  obtain ⟨⟨hne, hdigits⟩, hn⟩ := numeral_iff.mp hnum
  obtain ⟨hchecks, hhead, -, -⟩ := parsePrechecks_iff.mp hnum.prechecks
  have hstart : (num ++ rest).head?.any HexTexts.isspace = false := by
    rw [List.head?_append_of_ne_nil _ hchecks]
    exact hhead
  obtain ⟨htake, hdrop⟩ := takeWhile_isDigit hrest
  refine ⟨_, _, ?_, hn⟩
  rw [scan, List.dropWhile_append_of_pos hspace, dropWhile_isspace hstart, stripSign_append hnum]
  dsimp only
  rw [List.takeWhile_append_of_pos hdigits, List.dropWhile_append_of_pos hdigits, htake, hdrop,
    List.append_nil, if_neg hne]

/-- What is scanned is a number that the text begins with. -/
theorem leads_of_scan {negative : Bool} {m : Nat} (h : scan s = some (negative, m, rest)) :
    ∃ space num, s = space ++ (num ++ rest) ∧ (∀ c ∈ space, HexTexts.isspace c = true) ∧
      Numeral num (if negative then -(m : Int) else m) ∧ rest.head?.any Char.isDigit = false := by
  rw [scan] at h
  dsimp only at h
  split_ifs at h with hnone
  obtain ⟨rfl, rfl, rfl⟩ : _ ∧ _ ∧ _ := by simpa only [Option.some.injEq, Prod.mk.injEq] using h
  generalize ht : s.dropWhile HexTexts.isspace = t at *
  have hdigits : Digits ((stripSign t).2.takeWhile Char.isDigit) :=
    ⟨hnone, fun c hc => List.mem_takeWhile_imp hc⟩
  have hsplit : s = s.takeWhile HexTexts.isspace ++ t := by
    rw [← ht, List.takeWhile_append_dropWhile]
  have hspace (c : Char) (hc : c ∈ s.takeWhile HexTexts.isspace) : HexTexts.isspace c = true :=
    List.mem_takeWhile_imp hc
  obtain ⟨num, hnum, hvalue⟩ : ∃ num, t = num ++ (stripSign t).2.dropWhile Char.isDigit ∧
      Numeral num (if (stripSign t).1 then
        -(Nat.ofDigitChars 10 ((stripSign t).2.takeWhile Char.isDigit) 0 : Int)
        else Nat.ofDigitChars 10 ((stripSign t).2.takeWhile Char.isDigit) 0) := by
    unfold stripSign at hdigits ⊢
    split at hdigits
    · exact ⟨'-' :: _, congrArg _ List.takeWhile_append_dropWhile.symm, .minus hdigits⟩
    · exact ⟨'+' :: _, congrArg _ List.takeWhile_append_dropWhile.symm, .plus hdigits⟩
    · exact ⟨_, List.takeWhile_append_dropWhile.symm, .plain hdigits⟩
  refine ⟨_, num, ?_, hspace, hvalue, head_dropWhile _ _⟩
  rw [← hnum]
  exact hsplit

theorem leads_iff_scan : Leads str n ↔ ∃ negative m rest,
    scan (cStr str) = some (negative, m, rest) ∧ n = if negative then -(m : Int) else m := by
  constructor
  · rintro ⟨space, num, rest, hstr, hspace, hnum, hrest⟩
    obtain ⟨negative, m, hscan, hn⟩ := scan_of_leads hspace hnum hrest
    exact ⟨negative, m, rest, hstr ▸ hscan, hn⟩
  · rintro ⟨negative, m, rest, hscan, rfl⟩
    obtain ⟨space, num, hstr, hspace, hnum, hrest⟩ := leads_of_scan hscan
    exact ⟨space, num, rest, hstr, hspace, hnum, hrest⟩

theorem Leads.unique (h : Leads str n) (h' : Leads str m) : n = m := by
  obtain ⟨negative, k, rest, hscan, rfl⟩ := leads_iff_scan.mp h
  obtain ⟨negative', k', rest', hscan', rfl⟩ := leads_iff_scan.mp h'
  cases hscan.symm.trans hscan'
  rfl

theorem stoi_eq_some_iff : stoi str = some n ↔ Leads str n ∧ -2 ^ 31 ≤ n ∧ n < 2 ^ 31 := by
  rw [leads_iff_scan, stoi, strtol]
  cases hscan : scan (cStr str) with
  | none => simp
  | some r =>
    obtain ⟨negative, m, rest⟩ := r
    have hrest : rest.length ≠ (cStr str).length := by
      obtain ⟨space, num, hstr, -, hnum, -⟩ := leads_of_scan hscan
      have hpos := List.length_pos_iff.mpr (parsePrechecks_iff.mp hnum.prechecks).1
      rw [hstr, List.length_append, List.length_append]
      omega
    have hsome : (∃ negative' m' rest', some (negative, m, rest) = some (negative', m', rest') ∧
        n = if negative' then -(m' : Int) else m') ↔ n = if negative then -(m : Int) else m := by
      simp
    rw [hsome]
    obtain ⟨value, hvalue⟩ : ∃ value : Int, (if negative = true then -(m : Int) else m) = value :=
      ⟨_, rfl⟩
    simp only [hvalue]
    by_cases hlow : value < -2 ^ 63
    · rw [if_pos hlow]
      simp [hrest]
      omega
    · rw [if_neg hlow]
      by_cases hhigh : 2 ^ 63 ≤ value
      · rw [if_pos hhigh]
        simp [hrest]
        omega
      · rw [if_neg hhigh]
        simp [hrest]
        omega

-- What stands behind the digits is let through.
example : stoi ['5', 'k'] = some 5 := by decide

end Numbers

section Reading

variable {found : List Found} {args args' : Args} {o : LongOption} {x : Found}

/-- The values that were found for an option, in their order. -/
def values (o : LongOption) (found : List Found) : List Text :=
  found.filterMap fun
    | .option o' optarg => if o' = o then some (o.strVal optarg) else none
    | _ => none

/-- An option has the argument that it requires, and nobody asks for help. -/
def Found.Fine : Found → Prop
  | .option o optarg => o.hasArg = true → optarg ≠ []
  | .help => False
  | .other => True

/-- The arguments are what was found. -/
def Holds (found : List Found) (args : Args) : Prop :=
  ∀ o : LongOption, args.getArgs o.name = values o found ∧
    args.mapArgs.lookup o.name = (values o found).getLast?

theorem values_concat (o : LongOption) (found : List Found) (x : Found) :
    values o (found ++ [x]) = values o found ++ values o [x] :=
  List.filterMap_append

theorem values_option (o o' : LongOption) (optarg : Text) :
    values o [.option o' optarg] = if o' = o then [o.strVal optarg] else [] := by
  by_cases h : o' = o <;> simp [values, h]

theorem name_injective : Function.Injective LongOption.name := by
  intro o o' h
  cases o <;> cases o' <;> first | rfl | exact absurd h (by decide)

theorem getArgs_setArgs_self (args : Args) (arg argVal : Text) :
    (args.setArgs arg argVal).getArgs arg = args.getArgs arg ++ [argVal] := by
  have hlookup : (args.setArgs arg argVal).mapMultiArgs.lookup arg =
      some (args.getArgs arg ++ [argVal]) := AList.lookup_insert _
  rw [Args.getArgs, hlookup, Option.getD_some]

theorem getArgs_setArgs_ne {key arg : Text} (h : key ≠ arg) (args : Args) (argVal : Text) :
    (args.setArgs arg argVal).getArgs key = args.getArgs key :=
  congrArg (Option.getD · []) (AList.lookup_insert_ne h)

theorem Holds.setArgs (h : Holds found args) (o : LongOption) (optarg : Text) :
    Holds (found ++ [.option o optarg]) (args.setArgs o.name (o.strVal optarg)) := by
  intro o'
  rw [values_concat, values_option]
  by_cases ho : o = o'
  · subst ho
    rw [if_pos rfl, getArgs_setArgs_self, (h o).1, List.getLast?_concat]
    exact ⟨rfl, AList.lookup_insert _⟩
  · have hname : o'.name ≠ o.name := fun hname => ho (name_injective hname).symm
    rw [if_neg ho, List.append_nil, getArgs_setArgs_ne hname]
    exact ⟨(h o').1, (AList.lookup_insert_ne hname).trans (h o').2⟩

theorem Holds.other (h : Holds found args) : Holds (found ++ [.other]) args := by
  intro o
  rw [values_concat]
  exact (List.append_nil (values o found)).symm ▸ h o

/-- The loop ends just when everything is fine, and has noted all that was found. -/
theorem readOptions_holds {before : List Found} (h : Holds before args) :
    ((∃ args', readOptions found args = .ok args') ↔ ∀ x ∈ found, x.Fine) ∧
      ∀ args', readOptions found args = .ok args' → Holds (before ++ found) args' := by
  induction found generalizing before args with
  | nil =>
    refine ⟨iff_of_true ⟨args, rfl⟩ fun x hx => (by cases hx), ?_⟩
    rintro args' hrun
    cases hrun
    rw [List.append_nil]
    exact h
  | cons x found ih =>
    rw [List.forall_mem_cons, List.append_cons]
    cases x with
    | help =>
      refine ⟨iff_of_false ?_ fun hfine => hfine.1, ?_⟩
      · rintro ⟨args', hrun⟩
        cases hrun
      · rintro args' hrun
        cases hrun
    | other =>
      obtain ⟨hends, hholds⟩ := ih h.other
      exact ⟨hends.trans (and_iff_right trivial).symm, hholds⟩
    | option o optarg =>
      obtain ⟨hends, hholds⟩ := ih (h.setArgs o optarg)
      by_cases hempty : (o.hasArg && optarg.isEmpty) = true
      · have hrefused : ∀ args', readOptions (.option o optarg :: found) args ≠ .ok args' := by
          intro args' hrun
          rw [readOptions, if_pos hempty] at hrun
          cases hrun
        rw [Bool.and_eq_true, List.isEmpty_iff] at hempty
        refine ⟨iff_of_false ?_ fun hfine => hfine.1 hempty.1 hempty.2, ?_⟩
        · rintro ⟨args', hrun⟩
          exact hrefused args' hrun
        · intro args' hrun
          exact absurd hrun (hrefused args')
      · have hfine : (Found.option o optarg).Fine := by
          intro harg hnone
          exact hempty (by rw [harg, hnone]; rfl)
        rw [readOptions, if_neg hempty]
        exact ⟨hends.trans (and_iff_right hfine).symm, hholds⟩

end Reading

section Checks

variable {found : List Found} {args : Args} {A : Type} {inetPton : Text → Option A}
  {argv : List Text}

theorem Holds.isArgSet (h : Holds found args) (o : LongOption) :
    args.isArgSet o.name = true ↔ values o found ≠ [] := by
  rw [isArgSet_iff, (h o).2, ← Option.ne_none_iff_exists', ne_eq, List.getLast?_eq_none_iff]

theorem Holds.isArgSet_of_last (h : Holds found args) {o : LongOption} {str : Text}
    (hlast : (values o found).getLast? = some str) : args.isArgSet o.name = true := by
  rw [h.isArgSet, ne_eq, ← List.getLast?_eq_none_iff, hlast]
  exact Option.some_ne_none str

theorem Holds.not_isArgSet_of_last (h : Holds found args) {o : LongOption}
    (hlast : (values o found).getLast? = none) : ¬ args.isArgSet o.name = true := by
  rw [h.isArgSet, not_not]
  exact List.getLast?_eq_none_iff.mp hlast

theorem Holds.getArg (h : Holds found args) {o : LongOption} {str : Text}
    (hlast : (values o found).getLast? = some str) (argDefault : Text) :
    args.getArg o.name argDefault = str := by
  rw [Args.getArg, (h o).2, hlast, Option.getD_some]

theorem ite_ok_iff {c : Prop} [Decidable c] {e : Exception} :
    (if c then throw e else pure () : Except Exception Unit) = .ok () ↔ ¬ c := by
  split_ifs with hc
  · exact iff_of_false (fun h => by cases h) (not_not.mpr hc)
  · exact iff_of_true rfl hc

theorem forM_ok_iff {f : Text → Except Exception Unit} :
    argv.forM f = .ok () ↔ ∀ str ∈ argv, f str = .ok () := by
  induction argv with
  | nil => exact iff_of_true rfl fun str hstr => (by cases hstr)
  | cons str argv ih =>
    have hcons : (str :: argv).forM f = f str >>= fun _ => argv.forM f := rfl
    rw [List.forall_mem_cons, ← ih, hcons, bind_eq_ok]
    exact ⟨fun ⟨_, hstr, hrest⟩ => ⟨hstr, hrest⟩, fun ⟨hstr, hrest⟩ => ⟨(), hstr, hrest⟩⟩

theorem checkOptions_ok_iff : checkOptions argv = .ok () ↔ argv ≠ [] ∧
    ∀ str ∈ argv.tail, str ≠ ['-', '-'] ∧ (str.length ≤ 2 ∨ ['-', '-'] <+: str) := by
  cases argv with
  | nil => exact iff_of_false (fun h => by cases h) fun h => h.1 rfl
  | cons program argv =>
    rw [checkOptions, forM_ok_iff, List.tail_cons, and_iff_right (List.cons_ne_nil _ _)]
    refine forall₂_congr fun str _ => ?_
    have hmarked : ['-', '-'] <+: str ↔ str.take 2 = ['-', '-'] := by
      rw [List.prefix_iff_eq_take, eq_comm]
      rfl
    rw [ite_ok_iff, hmarked, Bool.or_eq_true, not_or, Bool.and_eq_true, decide_eq_true_iff,
      bne_iff_ne, beq_iff_eq, not_and_or, not_lt, not_not, and_comm]

theorem Holds.checkChain_ok_iff (h : Holds found args) : checkChain args = .ok () ↔
    values .testnet found = [] ∨ values .regtest found = [] := by
  rw [checkChain, ite_ok_iff, Bool.and_eq_true, h.isArgSet, h.isArgSet]
  tauto

theorem Holds.checkDebug_ok_iff (h : Holds found args) : checkDebug args = .ok () ↔
    ['0'] ∈ values .debug found ∨ ∀ m ∈ values .debug found, mapIntoModule m ≠ 0 := by
  rw [checkDebug, (h .debug).1]
  dsimp only
  split_ifs with hset hall
  · have hnone : ['0'] ∉ values .debug found := fun hmem => by
      simpa using List.all_eq_true.mp hall _ hmem
    rw [or_iff_right hnone]
    cases hfind : (values .debug found).find? (mapIntoModule · == 0) with
    | none =>
      refine iff_of_true rfl ?_
      simpa [List.find?_eq_none] using hfind
    | some m =>
      refine iff_of_false (fun hok => by cases hok) fun hknown => ?_
      exact hknown m (List.mem_of_find?_eq_some hfind) (by simpa using List.find?_some hfind)
  · exact iff_of_true rfl (.inl (by simpa using hall))
  · rw [h.isArgSet, not_not] at hset
    rw [hset]
    exact iff_of_true rfl (.inr fun m hm => by cases hm)

theorem Holds.checkLoglevel_ok_iff (h : Holds found args) : checkLoglevel args = .ok () ↔
    ∀ str, (values .loglevel found).getLast? = some str → ∃ n, Leads str n ∧ 0 ≤ n ∧ n < 6 := by
  rw [checkLoglevel]
  cases hlast : (values .loglevel found).getLast? with
  | none =>
    rw [if_neg (h.not_isArgSet_of_last hlast)]
    exact iff_of_true rfl fun str hstr => (by cases hstr)
  | some str =>
    rw [if_pos (h.isArgSet_of_last hlast), h.getArg hlast]
    simp only [Option.some.injEq, forall_eq']
    cases hlevel : stoi str with
    | none =>
      refine iff_of_false (fun hok => by cases hok) ?_
      rintro ⟨n, hn, hlow, hhigh⟩
      rw [stoi_eq_some_iff.mpr ⟨hn, by omega, by omega⟩] at hlevel
      cases hlevel
    | some n =>
      obtain ⟨hn, -, -⟩ := stoi_eq_some_iff.mp hlevel
      have hrange : ¬ (decide (n < 0) || decide ((logLevelMax : Int) ≤ n)) = true ↔
          0 ≤ n ∧ n < 6 := by
        rw [Bool.or_eq_true, decide_eq_true_iff, decide_eq_true_iff, not_or, not_lt, not_le]
        rfl
      dsimp only
      rw [ite_ok_iff, hrange]
      constructor
      · exact fun hbounds => ⟨n, hn, hbounds⟩
      · rintro ⟨m, hm, hbounds⟩
        rwa [hn.unique hm]

theorem Holds.checkArgsCustomized_ok_iff (h : Holds found args) :
    checkArgsCustomized args inetPton = .ok () ↔
      ∀ ip ∈ values .connect found, inetPton ip ≠ none := by
  rw [checkArgsCustomized, (h .connect).1]
  split_ifs with hset
  · cases hfind : (values .connect found).find? (fun ip => (inetPton ip).isNone) with
    | none =>
      refine iff_of_true rfl ?_
      simpa [List.find?_eq_none] using hfind
    | some ip =>
      refine iff_of_false (fun hok => by cases hok) fun hvalid => ?_
      exact hvalid ip (List.mem_of_find?_eq_some hfind) (by simpa using List.find?_some hfind)
  · rw [h.isArgSet, not_not] at hset
    rw [hset]
    exact iff_of_true rfl fun ip hip => (by cases hip)

end Checks

section Levels

variable {found : List Found} {args : Args} {s : Settings} {g : Glog}

/-- The number of the last level that was given, which is 3 if none was. -/
def Chosen (found : List Found) (n : Int) : Prop :=
  match (values .loglevel found).getLast? with
  | some str => Leads str n
  | none => n = 3

/-- The flags for a level. -/
def Settings.leveled (s : Settings) (n : Fin 6) : Settings :=
  if n.val ≤ 2 then { s with minloglevel := mapLoglevel.getD n 0 }
  else { s with minloglevel := 0, v := mapLoglevel.getD n 0 }

theorem leveled_btclog (hglog : g.Documented) (s : Settings) (n level : Fin 6) :
    (s.leveled n).btclog g level = decide (level ≤ n) := by
  fin_cases n <;> fin_cases level <;>
    simp [Settings.btclog, Settings.leveled, hglog.log, hglog.vlog, mapLoglevel]

theorem leveled_logModule (s : Settings) (n : Fin 6) : (s.leveled n).logModule = s.logModule := by
  rw [Settings.leveled]
  split_ifs <;> rfl

theorem Holds.initLoglevel_eq (h : Holds found args) {str : Text} {n : Fin 6}
    (hlast : (values .loglevel found).getLast? = some str) (hn : Leads str n.val) :
    initLoglevel args s = some (s.leveled n) := by
  have hlevel : stoi str = some (n.val : Int) :=
    stoi_eq_some_iff.mpr ⟨hn, by omega, by omega⟩
  rw [initLoglevel, if_pos (h.isArgSet_of_last hlast), h.getArg hlast, hlevel]
  fin_cases n <;> rfl

/-- The flags are those of the level that was chosen. -/
theorem Holds.levels (h : Holds found args) (hglog : g.Documented)
    (hchecked : checkLoglevel args = .ok ()) (hs : s.minloglevel = 0 ∧ s.v = 4) :
    ∃ s', initLoglevel args s = some s' ∧ s'.logModule = s.logModule ∧
      ∃ n, Chosen found n ∧ ∀ level : Fin 6, s'.btclog g level = true ↔ (level.val : Int) ≤ n := by
  rw [h.checkLoglevel_ok_iff] at hchecked
  unfold Chosen
  cases hlast : (values .loglevel found).getLast? with
  | none =>
    refine ⟨s, if_neg (h.not_isArgSet_of_last hlast), rfl, 3, rfl, fun level => ?_⟩
    have hsame : s.btclog g level = (s.leveled 3).btclog g level := by
      simp only [Settings.btclog, Settings.leveled, hs.1, hs.2]
      rfl
    rw [hsame, leveled_btclog hglog, decide_eq_true_iff]
    omega
  | some str =>
    obtain ⟨n, hn, hlow, hhigh⟩ := hchecked str hlast
    obtain ⟨k, rfl⟩ : ∃ k : Fin 6, (k.val : Int) = n := ⟨⟨n.toNat, by omega⟩, by simp [hlow]⟩
    refine ⟨s.leveled k, h.initLoglevel_eq hlast hn, leveled_logModule s k, k, hn, fun level => ?_⟩
    rw [leveled_btclog hglog, decide_eq_true_iff]
    omega

end Levels

section Modules

variable {found : List Found} {args : Args} {s : Settings} {names : List Text}

theorem or_ne_zero_iff {a b : BitVec 32} : a ||| b ≠ 0 ↔ a ≠ 0 ∨ b ≠ 0 :=
  (not_congr BitVec.or_eq_zero_iff).trans not_and_or

theorem setWidth_and_ne_zero (m k : BitVec 16) :
    (m.setWidth 32 &&& k.setWidth 32 ≠ (0 : BitVec 32)) ↔ k &&& m ≠ 0 := by
  rw [BitVec.and_comm, ← BitVec.setWidth_and]
  refine not_congr ⟨fun h => ?_, fun h => by rw [h]; rfl⟩
  have hback := congrArg (BitVec.setWidth 16) h
  rwa [BitVec.setWidth_setWidth_of_le _ (by decide), BitVec.setWidth_eq] at hback

/-- The modules that are named are added to those that were logged. -/
theorem foldl_logModule (names : List Text) (s : Settings) (m : BitVec 16) :
    let s' := names.foldl (fun s module =>
      { s with logModule := s.logModule ||| (mapIntoModule module).setWidth 32 }) s
    (m.setWidth 32 &&& s'.logModule ≠ 0 ↔ m.setWidth 32 &&& s.logModule ≠ 0 ∨
      ∃ name ∈ names, mapIntoModule name &&& m ≠ 0) ∧
      s'.minloglevel = s.minloglevel ∧ s'.v = s.v := by
  induction names generalizing s with
  | nil => simp
  | cons name names ih =>
    obtain ⟨hmodule, hflags⟩ := ih { s with
      logModule := s.logModule ||| (mapIntoModule name).setWidth 32 }
    refine ⟨hmodule.trans ?_, hflags⟩
    rw [BitVec.and_or_distrib_left, or_ne_zero_iff, setWidth_and_ne_zero, List.exists_mem_cons_iff,
      or_assoc]

/-- Nothing but the modules is set, to those that are named unless one of them is `0`. -/
theorem Holds.modules (h : Holds found args) (m : BitVec 16) :
    (m.setWidth 32 &&& (initDebug args {}).logModule ≠ 0 ↔ ['0'] ∉ values .debug found ∧
      ∃ name ∈ values .debug found, mapIntoModule name &&& m ≠ 0) ∧
      (initDebug args {}).minloglevel = 0 ∧ (initDebug args {}).v = 4 := by
  have hnone : m.setWidth 32 &&& ({} : Settings).logModule = 0 := BitVec.and_zero
  rw [initDebug, (h .debug).1]
  dsimp only
  split_ifs with hset hall
  · have hnot : ['0'] ∉ values .debug found := fun hmem => by
      simpa using List.all_eq_true.mp hall _ hmem
    obtain ⟨hmodule, hflags⟩ := foldl_logModule (values .debug found) {} m
    refine ⟨hmodule.trans ?_, hflags⟩
    rw [hnone, and_iff_right hnot, or_iff_right (fun hne => hne rfl)]
  · have hmem : ['0'] ∈ values .debug found := by simpa using hall
    exact ⟨iff_of_false (fun hne => hne hnone) fun hnot => hnot.1 hmem, rfl, rfl⟩
  · rw [h.isArgSet, not_not] at hset
    rw [hset]
    refine ⟨iff_of_false (fun hne => hne hnone) ?_, rfl, rfl⟩
    rintro ⟨-, name, hname, -⟩
    cases hname

end Modules

section Results

/-- The command lines that are taken. -/
structure Proper {A : Type} (inetPton : Text → Option A) (argv : List Text) (found : List Found) :
    Prop where
  program : argv ≠ []
  options : ∀ str ∈ argv.tail, str ≠ ['-', '-'] ∧ (str.length ≤ 2 ∨ ['-', '-'] <+: str)
  fine : ∀ x ∈ found, x.Fine
  chain : values .testnet found = [] ∨ values .regtest found = []
  modules : ['0'] ∈ values .debug found ∨ ∀ m ∈ values .debug found, mapIntoModule m ≠ 0
  level : ∀ str, (values .loglevel found).getLast? = some str → ∃ n, Leads str n ∧ 0 ≤ n ∧ n < 6
  ips : ∀ ip ∈ values .connect found, inetPton ip ≠ none

/-- The settings are what the command line asks for. -/
structure Configured (g : Glog) (found : List Found) (s : Settings) : Prop where
  testnet : s.btcnet = .kTestNet ↔ values .testnet found ≠ []
  regtest : s.btcnet = .kRegTest ↔ values .regtest found ≠ []
  network : s.btcnet ≠ .kNone
  levels : ∃ n, Chosen found n ∧ ∀ level : Fin 6, s.btclog g level = true ↔ (level.val : Int) ≤ n
  modules : ∀ (level : Fin 6) (m : BitVec 16), s.btclogMod g level m = true ↔
    s.btclog g level = true ∧ ['0'] ∉ values .debug found ∧
      ∃ name ∈ values .debug found, mapIntoModule name &&& m ≠ 0

variable {A : Type} {inetPton : Text → Option A} {getoptLong : List Text → List Found}
  {argv : List Text} {args : Args}

theorem parseParameters_ok_iff : parseParameters inetPton getoptLong argv = .ok args ↔
    checkOptions argv = .ok () ∧ readOptions (getoptLong argv) {} = .ok args ∧
      checkChain args = .ok () ∧ checkDebug args = .ok () ∧ checkLoglevel args = .ok () ∧
      checkArgsCustomized args inetPton = .ok () := by
  simp only [parseParameters, checkArgs, bind_eq_ok]
  constructor
  · rintro ⟨⟨⟩, hoptions, read, hread, ⟨⟩, ⟨⟨⟩, hchain, ⟨⟩, hdebug, ⟨⟩, hlevel, hips⟩, hargs⟩
    cases hargs
    exact ⟨hoptions, hread, hchain, hdebug, hlevel, hips⟩
  · rintro ⟨hoptions, hread, hchain, hdebug, hlevel, hips⟩
    exact ⟨(), hoptions, args, hread, (), ⟨(), hchain, (), hdebug, (), hlevel, hips⟩, rfl⟩

/-- The network is the one that is asked for, and the main one if none is. -/
theorem Holds.network {found : List Found} (h : Holds found args)
    (hchecked : checkChain args = .ok ()) :
    (initNetwork args = .kTestNet ↔ values .testnet found ≠ []) ∧
      (initNetwork args = .kRegTest ↔ values .regtest found ≠ []) ∧
      initNetwork args ≠ .kNone := by
  rw [h.checkChain_ok_iff] at hchecked
  rw [← h.isArgSet, ← h.isArgSet, initNetwork]
  split_ifs with htestnet hregtest
  · have hregtest : ¬ args.isArgSet LongOption.regtest.name = true := by
      rw [h.isArgSet, not_not]
      exact hchecked.resolve_left ((h.isArgSet _).mp htestnet)
    simp [htestnet, hregtest]
  · simp [htestnet, hregtest]
  · simp [htestnet, hregtest]

theorem holds_nil : Holds [] {} := fun _ => ⟨rfl, rfl⟩

/-- Exactly the proper command lines are parsed, and `InitArgs` returns after that with the log
and the network that they ask for. -/
theorem parseParameters_exact {g : Glog} (hglog : g.Documented) (inetPton : Text → Option A)
    (getoptLong : List Text → List Found) (argv : List Text) :
    ((∃ args, parseParameters inetPton getoptLong argv = .ok args) ↔
      Proper inetPton argv (getoptLong argv)) ∧
      ∀ args, parseParameters inetPton getoptLong argv = .ok args →
        ∃ s, initArgs args = some s ∧ Configured g (getoptLong argv) s := by
  obtain ⟨hends, hholds⟩ : ((∃ args, readOptions (getoptLong argv) {} = .ok args) ↔
      ∀ x ∈ getoptLong argv, x.Fine) ∧ ∀ args, readOptions (getoptLong argv) {} = .ok args →
        Holds ([] ++ getoptLong argv) args := readOptions_holds holds_nil
  rw [List.nil_append] at hholds
  refine ⟨⟨?_, fun h => ?_⟩, fun args hrun => ?_⟩
  · rintro ⟨args, hrun⟩
    obtain ⟨hoptions, hread, hchain, hdebug, hlevel, hips⟩ := parseParameters_ok_iff.mp hrun
    have hargs := hholds args hread
    obtain ⟨hprogram, htail⟩ := checkOptions_ok_iff.mp hoptions
    exact ⟨hprogram, htail, hends.mp ⟨args, hread⟩, hargs.checkChain_ok_iff.mp hchain,
      hargs.checkDebug_ok_iff.mp hdebug, hargs.checkLoglevel_ok_iff.mp hlevel,
      hargs.checkArgsCustomized_ok_iff.mp hips⟩
  · obtain ⟨args, hread⟩ := hends.mpr h.fine
    have hargs := hholds args hread
    exact ⟨args, parseParameters_ok_iff.mpr ⟨checkOptions_ok_iff.mpr ⟨h.program, h.options⟩, hread,
      hargs.checkChain_ok_iff.mpr h.chain, hargs.checkDebug_ok_iff.mpr h.modules,
      hargs.checkLoglevel_ok_iff.mpr h.level, hargs.checkArgsCustomized_ok_iff.mpr h.ips⟩⟩
  · obtain ⟨-, hread, hchain, -, hlevel, -⟩ := parseParameters_ok_iff.mp hrun
    have hargs := hholds args hread
    obtain ⟨s, hinit, hmodule, hlevels⟩ := hargs.levels hglog hlevel (hargs.modules 0).2
    have hreturns : initArgs args = some { s with btcnet := initNetwork args } := by
      rw [initArgs, hinit]
      rfl
    obtain ⟨htestnet, hregtest, hknown⟩ := hargs.network hchain
    refine ⟨_, hreturns, htestnet, hregtest, hknown, hlevels, fun level m => ?_⟩
    rw [← (hargs.modules m).1, ← hmodule, and_comm]
    exact Bool.and_eq_true_iff.trans (and_congr_left' bne_iff_ne)

/-- As glog does. -/
def plainGlog : Glog where
  log minloglevel severity := decide (minloglevel ≤ severity)
  vlog minloglevel v verboselevel := decide (verboselevel ≤ v) && decide (minloglevel ≤ 0)

/-- The node is told to log what the module `net` debugs. -/
def netArgv : List Text := ["btclite".toList, "--debug=net".toList, "--loglevel=4".toList]

def netFound : List Found := [.option .debug ['n', 'e', 't'], .option .loglevel ['4']]

theorem parseParameters_exact_net : ∃ args s,
    parseParameters (fun ip => some ip) (fun _ => netFound) netArgv = .ok args ∧
      initArgs args = some s ∧ Configured plainGlog netFound s := by
  have hglog : plainGlog.Documented := ⟨fun _ _ => rfl, fun _ _ _ => rfl⟩
  obtain ⟨args, hargs⟩ : ∃ args,
      parseParameters (fun ip => some ip) (fun _ => netFound) netArgv = .ok args := ⟨_, rfl⟩
  obtain ⟨s, hs, hconfigured⟩ :=
    (parseParameters_exact hglog (fun ip => some ip) (fun _ => netFound) netArgv).2 args hargs
  exact ⟨args, s, hargs, hs, hconfigured⟩

end Results

end CommandLine
