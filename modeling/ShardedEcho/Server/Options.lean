import Mathlib.Data.Nat.Digits
import Mathlib.Data.String.Basic

/-!
# The options of `main`

`main` of `src/server/main.cpp` takes `--port`, `--cores` and `--recvbuf` as strings from
`ArgParser` (in `common/arg_parser.hpp`, which is not part of the sources: the strings it
returns are inputs) and reads them with `std::atoi` and `std::strtol`, whose value on the
32-bit `int` and `long` of Windows is `strtol` here.

This file proves the following.
* `parseOptions_ok`: a configuration `main` goes on with has the port it was given, in
  `1 .. 65535`, a positive buffer size, and at most one worker per processor.
* `parseOptions_decimal`: given decimal numerals, as `toString` writes them, `main` reads back
  the numbers they name: it goes on exactly when the port is in `1 .. 65535`, and takes the
  requested workers and buffer size when they are in range.
-/

namespace ShardedEcho

/-! ## Options -/

/-- The strings `ArgParser::get` returns for `port`, `cores` and `recvbuf` (the defaults
`main` registers when an option is absent), and `ArgParser::is_set("help")`. -/
structure Args where
  help : Bool := false
  port : String
  cores : String := "0"
  recvbuf : String := "4194304"
  deriving DecidableEq, Repr

/-- `isspace` in the C locale. -/
def isCSpace (c : Char) : Bool :=
  c = ' ' || c = '\t' || c = '\n' || c = '\r' || c.toNat = 11 || c.toNat = 12

/-- The value of the decimal digits at the front of `cs`, read after `acc`. -/
def leadingDigits : List Char → Nat → Nat
  | [], acc => acc
  | c :: cs, acc => if c.isDigit then leadingDigits cs (10 * acc + (c.toNat - '0'.toNat)) else acc

/-- `strtol(s, nullptr, 10)` of the C library with the 32-bit `long` of Windows: white space,
an optional sign, then the decimal digits that follow, clamped to `[LONG_MIN, LONG_MAX]`;
`0` when no digit follows. The Microsoft `atoi` gives the same value, clamped to the same
bounds of the 32-bit `int`. -/
def strtol (s : String) : Int :=
  let v : Int :=
    match s.toList.dropWhile isCSpace with
    | '-' :: rest => -(leadingDigits rest 0 : Int)
    | '+' :: rest => leadingDigits rest 0
    | rest => leadingDigits rest 0
  max (-2 ^ 31) (min (2 ^ 31 - 1) v)

/-- What `main` takes from its options: the port, the number of workers and the socket
buffer size. -/
structure Config where
  port : Int
  numWorkers : Nat
  recvbuf : Int
  deriving DecidableEq, Repr

/-- The option handling of `main`, with `num_processors = get_processor_count()`: the exit
code and the message of an early return (`--help` prints the usage and returns 0), or the
configuration. A `cores` value out of `1 .. num_processors` and a `recvbuf` value that is not
positive are ignored. -/
def parseOptions (args : Args) (numProcessors : Nat) : Except (Nat × String) Config :=
  if args.help then .error (0, "")
  else if args.port.isEmpty then .error (1, "Port is required\n")
  else
    let port := strtol args.port
    if port ≤ 0 ∨ port > 65535 then .error (1, "Invalid port\n")
    else
      let numWorkers :=
        if args.cores.isEmpty then numProcessors
        else
          let requested := strtol args.cores
          if requested > 0 ∧ requested.toNat ≤ numProcessors then requested.toNat
          else numProcessors
      let recvbuf :=
        if args.recvbuf.isEmpty then 4194304
        else
          let v := strtol args.recvbuf
          if v > 0 then v else 4194304
      .ok ⟨port, numWorkers, recvbuf⟩

/-! ## The options `main` accepts -/

/-- A configuration `main` goes on with: a port in `1 .. 65535`, a positive buffer size. -/
structure Config.Valid (cfg : Config) : Prop where
  port_pos : 0 < cfg.port
  port_le : cfg.port ≤ 65535
  recvbuf_pos : 0 < cfg.recvbuf

/-- When `main` goes on past its options, it uses the port it was given, in `1 .. 65535`, a
positive buffer size, and at most one worker per processor. -/
theorem parseOptions_ok {args : Args} {n : Nat} {cfg : Config}
    (h : parseOptions args n = .ok cfg) :
    cfg.port = strtol args.port ∧ cfg.Valid ∧ cfg.numWorkers ≤ n := by
  unfold parseOptions at h
  by_cases hhelp : args.help = true
  · simp [hhelp] at h
  by_cases hempty : args.port.isEmpty = true
  · simp [hhelp, hempty] at h
  by_cases hrange : strtol args.port ≤ 0 ∨ strtol args.port > 65535
  · simp [hhelp, hempty, hrange] at h
  simp only [hhelp, hempty, hrange, Bool.false_eq_true, if_false, Except.ok.injEq] at h
  subst h
  refine ⟨rfl, ⟨?_, ?_, ?_⟩, ?_⟩ <;> dsimp only
  · omega
  · omega
  · split
    · decide
    · split <;> omega
  · split
    · exact le_rfl
    · split <;> omega

/-! ## Decimal numerals -/

/-- The characters `Nat.digitChar` gives for the digits `0 .. 9` are the digits, read back by
`leadingDigits`. -/
theorem digitChar_digit : ∀ d < 10, (Nat.digitChar d).isDigit = true ∧
    (Nat.digitChar d).toNat - '0'.toNat = d := by decide

/-- No digit is white space or a sign. -/
theorem digitChar_not_sign : ∀ d < 10, isCSpace (Nat.digitChar d) = false ∧
    Nat.digitChar d ≠ '-' ∧ Nat.digitChar d ≠ '+' := by decide

/-- `leadingDigits` reads a run of digits and goes on with what follows it. -/
theorem leadingDigits_append {l : List Char} (hl : ∀ c ∈ l, c.isDigit = true) (r : List Char)
    (acc : Nat) : leadingDigits (l ++ r) acc = leadingDigits r (leadingDigits l acc) := by
  induction l generalizing acc with
  | nil => rfl
  | cons c l ih =>
    rw [List.forall_mem_cons] at hl
    simp only [List.cons_append, leadingDigits, hl.1, if_true]
    exact ih hl.2 _

/-- `Nat.toDigitsCore` puts its digits in front of the accumulator. -/
theorem toDigitsCore_append (fuel n : Nat) (ds : List Char) :
    Nat.toDigitsCore 10 fuel n ds = Nat.toDigitsCore 10 fuel n [] ++ ds := by
  induction fuel generalizing n ds with
  | zero => rfl
  | succ fuel ih =>
    simp only [Nat.toDigitsCore]
    split
    · rfl
    · rw [ih _ (_ :: ds), ih _ [_], List.append_assoc, List.singleton_append]

/-- With enough fuel, `Nat.toDigitsCore` writes a non-empty run of digits that
`leadingDigits` reads back as `n`. -/
theorem toDigitsCore_decimal {fuel n : Nat} (h : n < fuel) :
    ∃ d cs, d < 10 ∧ Nat.toDigitsCore 10 fuel n [] = Nat.digitChar d :: cs ∧
      (∀ c ∈ Nat.toDigitsCore 10 fuel n [], c.isDigit = true) ∧
      leadingDigits (Nat.toDigitsCore 10 fuel n []) 0 = n := by
  induction fuel generalizing n with
  | zero => omega
  | succ fuel ih =>
    have hlt : n % 10 < 10 := Nat.mod_lt n (by decide)
    obtain ⟨hdig, hval⟩ := digitChar_digit _ hlt
    simp only [Nat.toDigitsCore]
    split
    · -- one digit
      refine ⟨n % 10, [], hlt, rfl, List.forall_mem_singleton.2 hdig, ?_⟩
      simp only [leadingDigits, hdig, if_true]
      omega
    · -- the digits of `n / 10`, then the last one
      obtain ⟨d, cs, hd, hhead, hdigs, hvals⟩ := ih (show n / 10 < fuel by omega)
      rw [toDigitsCore_append]
      refine ⟨d, cs ++ [Nat.digitChar (n % 10)], hd, by rw [hhead, List.cons_append],
        List.forall_mem_append.2 ⟨hdigs, List.forall_mem_singleton.2 hdig⟩, ?_⟩
      rw [leadingDigits_append hdigs, hvals]
      simp only [leadingDigits, hdig, if_true]
      omega

/-- The decimal numeral of `n`, as `toString` writes it: a digit, then more digits, that
`leadingDigits` reads back as `n`. -/
theorem toString_decimal (n : Nat) :
    ∃ d cs, d < 10 ∧ (toString n).toList = Nat.digitChar d :: cs ∧
      leadingDigits (Nat.digitChar d :: cs) 0 = n := by
  obtain ⟨d, cs, hd, hhead, -, hval⟩ := toDigitsCore_decimal (Nat.lt_succ_self n)
  exact ⟨d, cs, hd, hhead, hhead ▸ hval⟩

/-- A numeral is never the empty string, so `main` never takes it for an absent option. -/
theorem toString_isEmpty (n : Nat) : (toString n).isEmpty = false := by
  obtain ⟨d, cs, -, hlist, -⟩ := toString_decimal n
  rw [Bool.eq_false_iff, ne_eq, String.isEmpty_iff, String.ext_iff]
  exact fun h => List.cons_ne_nil _ _ (hlist.symm.trans h)

/-- `strtol` reads every decimal numeral back, up to `LONG_MAX`. -/
theorem strtol_toString (n : Nat) : strtol (toString n) = min (n : Int) (2 ^ 31 - 1) := by
  obtain ⟨d, cs, hd, hlist, hval⟩ := toString_decimal n
  obtain ⟨hspace, hminus, hplus⟩ := digitChar_not_sign d hd
  unfold strtol
  rw [hlist, List.dropWhile_cons_of_neg (by simp [hspace])]
  split
  · cases hminus (List.cons.inj ‹_›).1
  · cases hplus (List.cons.inj ‹_›).1
  · dsimp only
    rw [hval]
    omega

/-- The options as decimal numerals: `main` goes on exactly when the port is in
`1 .. 65535`, with that port, the requested number of workers when it is in
`1 .. num_processors` and every processor otherwise, and the requested buffer size when it is
positive (`strtol` and `atoi` stop at `2^31 - 1`). -/
theorem parseOptions_decimal (port cores recvbuf numProcessors : Nat) :
    parseOptions { port := toString port, cores := toString cores, recvbuf := toString recvbuf }
        numProcessors =
      if 0 < port ∧ port ≤ 65535 then
        .ok ⟨port,
          if 0 < cores ∧ min cores (2 ^ 31 - 1) ≤ numProcessors then min cores (2 ^ 31 - 1)
          else numProcessors,
          if 0 < recvbuf then min (recvbuf : Int) (2 ^ 31 - 1) else 4194304⟩
      else .error (1, "Invalid port\n") := by
  unfold parseOptions
  simp only [toString_isEmpty, strtol_toString, Bool.false_eq_true, if_false]
  by_cases hp : 0 < port ∧ port ≤ 65535
  · rw [if_neg (by omega), if_pos hp]
    congr 2
    · omega
    · split_ifs <;> omega
    · split_ifs <;> omega
  · rw [if_pos (by omega), if_neg hp]

example : parseOptions { port := "5000", cores := "64" } 8 = .ok ⟨5000, 8, 4194304⟩ := rfl

end ShardedEcho
