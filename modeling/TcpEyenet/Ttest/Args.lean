import TcpEyenet.Lib.Traced

/-! The command line of ttest. A string is the list of its characters. -/
namespace TcpEyenet.Ttest

/-- `prog_param_t`. -/
structure ProgParam where
  mode : UInt32
  ip : UInt32
  port : UInt16
  pktsize : UInt32
  duration : UInt32
  reportingInterval : UInt32
  rateKbps : UInt32
  nCpus : UInt32
  deriving DecidableEq

inductive Line
  | usage (prog : List Char)
  | text (s : String)

/-- How a turn of the loop of `parse_args` ends: the loop goes on, or the call returns, either -1
(`none`) or 0. -/
inductive Parsed
  | on (p : ProgParam)
  | ret (r : Option ProgParam)
  deriving DecidableEq

def isSpace (c : Char) : Bool := c = ' ' || ('\t'.toNat ≤ c.toNat && c.toNat ≤ '\r'.toNat)

/-- The number that a string of digits denotes. -/
def decimal (ds : List Char) : ℕ := ds.foldl (fun n c => 10 * n + (c.toNat - '0'.toNat)) 0

/-- What follows the sign of a number, and whether the sign is a minus. -/
def unsign : List Char → Bool × List Char
  | '-' :: s => (true, s)
  | '+' :: s => (false, s)
  | s => (false, s)

/-- `atoi`: `strtol` keeps what it reads within a `long`, of which `atoi` returns the low half. -/
def atoi (s : List Char) : Int32 :=
  let r := unsign (s.dropWhile isSpace)
  let n : ℤ := decimal (r.2.takeWhile Char.isDigit)
  Int32.ofInt (if r.1 then max (-2 ^ 63) (-n) else min (2 ^ 63 - 1) n)

/-- A part of an address: a number up to 255, without leading zeros. -/
def octet (s : List Char) : Option ℕ :=
  if s ≠ [] ∧ s.all Char.isDigit ∧ (s.head? = some '0' → s.length = 1) ∧ decimal s ≤ 255 then
    some (decimal s)
  else none

/-- `inet_pton` for AF_INET; the first part of the address is the first byte in memory. -/
def inetPton (s : List Char) : Option UInt32 :=
  match (s.splitOn '.').map octet with
  | [some a, some b, some c, some d] => some (UInt32.ofNat (a + 256 * (b + 256 * (c + 256 * d))))
  | _ => none

/-- "c:s:p:b:P:t:i:l:": every option takes an argument. -/
def optstring : List Char := ['c', 's', 'p', 'b', 'P', 't', 'i', 'l']

/-- What the calls of `getopt` return, up to a first '?', after which there is no further call:
an option takes the rest of its word or the next word, and words that are no options are passed
over. -/
def getopt : List (List Char) → List (Char × List Char)
  | [] => []
  | ('-' :: '-' :: []) :: _ => []
  | ('-' :: c :: cs) :: argv =>
    if c ∈ optstring then
      match cs, argv with
      | [], [] => [('?', [])]
      | [], optarg :: argv => (c, optarg) :: getopt argv
      | cs, argv => (c, cs) :: getopt argv
    else [('?', [])]
  | _ :: argv => getopt argv

namespace ProgParam

/-- The zeros of `main`, and the defaults. -/
def new : ProgParam :=
  { mode := 0
    ip := 0
    port := 5001
    pktsize := 1472
    duration := 5
    reportingInterval := 1
    rateKbps := 10 * 1000
    nCpus := 1 }

variable (p : ProgParam) (optarg : List Char)

def refuse (msg : String) : Traced Line Parsed := ⟨.ret none, [.text msg]⟩

/-- -c and -s. -/
def setMode (mode : UInt32) (illegal : String) : Traced Line Parsed :=
  if p.mode ≠ 0 then refuse "both client/server mode not allowed\n"
  else
    match inetPton optarg with
    | none => refuse (illegal ++ String.ofList optarg ++ "\n")
    | some ip => pure (.on { p with mode := mode, ip := ip })

def setPort (v : UInt32) : Traced Line Parsed :=
  if v = 0 ∨ v > 65535 then refuse ("improper port number " ++ String.ofList optarg ++ "\n")
  else pure (.on { p with port := v.toUInt16 })

def setCpus (v : UInt32) : Traced Line Parsed :=
  if v > 1000 then refuse "more than 1000 conns/threads not allowed\n"
  else pure (.on { p with nCpus := if v = 0 then 1 else v })

def setDuration (v : UInt32) : Traced Line Parsed :=
  if v = 0 then refuse ("illegal duration " ++ String.ofList optarg ++ "\n")
  else pure (.on { p with duration := v })

def setInterval (v : UInt32) : Traced Line Parsed :=
  if v = 0 then refuse ("illegal interval " ++ String.ofList optarg ++ " secs\n")
  else pure (.on { p with reportingInterval := v })

/-- The header is shorter than the 64 bytes of `min_pkt_sz`. -/
def setPktsize (v : UInt32) : Traced Line Parsed :=
  if v < 64 ∨ v > 1472 then
    refuse ("illegal pkt len " ++ String.ofList optarg ++ ". should be in [64 - 1472] range\n")
  else pure (.on { p with pktsize := v.toUInt16.toUInt32 })

/-- The product is one of 32 bits. The byte before an empty argument ends the word before it. -/
def setRate : Traced Line Parsed :=
  let u := optarg.getLast?.getD '\x00'
  if u ≠ 'K' ∧ u ≠ 'M' then refuse "rate should have either 'K' or 'M' suffix\n"
  else
    let rate : UInt32 := (if u = 'M' then 1000 else 1) * (atoi optarg.dropLast).toUInt32
    if rate < 100 ∨ rate > 1000000 then
      refuse ("illegal kbps rate " ++ toString rate.toNat ++
        ". should be in [100 - 1000000] range\n")
    else pure (.on { p with rateKbps := rate })

/-- The `switch` on an option. -/
def parseOption (prog : List Char) (c : Char) : Traced Line Parsed :=
  let v := (atoi optarg).toUInt32
  match c with
  | 'c' => p.setMode optarg 1 "illegal remote server ip "
  | 's' => p.setMode optarg 2 "illegal local bind ip "
  | 'p' => p.setPort optarg v
  | 'P' => p.setCpus v
  | 't' => p.setDuration optarg v
  | 'i' => p.setInterval optarg v
  | 'l' => p.setPktsize optarg v
  | 'b' => p.setRate optarg
  | _ => ⟨.ret (some p), [.usage prog]⟩

/-- The loop of `parse_args`, and what comes after it. -/
def parseOptions (prog : List Char) :
    ProgParam → List (Char × List Char) → Traced Line (Option ProgParam)
  | p, [] =>
    if p.mode = 0 then ⟨none, [.text "specify either -c or -s\n", .usage prog]⟩
    else pure (some p)
  | p, (c, optarg) :: opts => do
    match ← p.parseOption optarg prog c with
    | .on p' => parseOptions prog p' opts
    | .ret r => pure r

end ProgParam

/-- `parse_args` on the words after the name of the program: `none` is -1, and 0 comes with the
parameters. -/
def parseArgs (prog : List Char) (argv : List (List Char)) : Traced Line (Option ProgParam) :=
  ProgParam.new.parseOptions prog (getopt argv)

namespace ProgParam

variable {p : ProgParam} {v : UInt32} {c u : Char} {optarg prog ds : List Char}
  {opts : List (Char × List Char)}

/-- The ranges that the options are checked against. -/
structure Valid (p : ProgParam) : Prop where
  port : 1 ≤ p.port.toNat ∧ p.port.toNat ≤ 65535
  pktsize : 64 ≤ p.pktsize.toNat ∧ p.pktsize.toNat ≤ 1472
  nCpus : 1 ≤ p.nCpus.toNat ∧ p.nCpus.toNat ≤ 1000
  duration : 1 ≤ p.duration.toNat
  reportingInterval : 1 ≤ p.reportingInterval.toNat
  rateKbps : 100 ≤ p.rateKbps.toNat ∧ p.rateKbps.toNat ≤ 1000000

theorem valid_new : new.Valid := by constructor <;> decide

/-- Whatever parameters there are after an option are valid. -/
def Keeps : Parsed → Prop
  | .on p => p.Valid
  | .ret r => ∀ p ∈ r, p.Valid

theorem keeps_refuse (msg : String) : Keeps (refuse msg).val := by simp [Keeps, refuse]

theorem keeps_setMode (h : p.Valid) (mode : UInt32) (illegal : String) :
    Keeps (p.setMode optarg mode illegal).val := by
  unfold setMode
  split_ifs
  · exact keeps_refuse _
  · cases inetPton optarg with
    | none => exact keeps_refuse _
    | some ip => exact { h with }

theorem one_le_of_ne_zero (hv : v ≠ 0) : 1 ≤ v.toNat :=
  Nat.one_le_iff_ne_zero.mpr fun h => hv (UInt32.toNat_inj.mp h)

theorem keeps_setPort (h : p.Valid) : Keeps (p.setPort optarg v).val := by
  unfold setPort
  split_ifs with hv
  · exact keeps_refuse _
  · obtain ⟨hzero, hmax⟩ := not_or.mp hv
    have hle : v.toNat ≤ 65535 := UInt32.le_iff_toNat_le.mp (UInt32.not_lt.mp hmax)
    have hport : v.toUInt16.toNat = v.toNat := by
      rw [UInt32.toNat_toUInt16]
      omega
    exact { h with port := hport ▸ ⟨one_le_of_ne_zero hzero, hle⟩ }

theorem keeps_setCpus (h : p.Valid) : Keeps (p.setCpus v).val := by
  unfold setCpus
  by_cases hv : v > 1000
  · rw [if_pos hv]
    exact keeps_refuse _
  · rw [if_neg hv]
    have hle : v.toNat ≤ 1000 := UInt32.le_iff_toNat_le.mp (UInt32.not_lt.mp hv)
    refine { h with nCpus := ?_ }
    by_cases hzero : v = 0
    · simp [hzero]
    · simpa [hzero] using ⟨one_le_of_ne_zero hzero, hle⟩

theorem keeps_setDuration (h : p.Valid) : Keeps (p.setDuration optarg v).val := by
  unfold setDuration
  split_ifs with hv
  · exact keeps_refuse _
  · exact { h with duration := one_le_of_ne_zero hv }

theorem keeps_setInterval (h : p.Valid) : Keeps (p.setInterval optarg v).val := by
  unfold setInterval
  split_ifs with hv
  · exact keeps_refuse _
  · exact { h with reportingInterval := one_le_of_ne_zero hv }

theorem keeps_setPktsize (h : p.Valid) : Keeps (p.setPktsize optarg v).val := by
  unfold setPktsize
  split_ifs with hv
  · exact keeps_refuse _
  · obtain ⟨hlow, hhigh⟩ := not_or.mp hv
    have hge : 64 ≤ v.toNat := UInt32.le_iff_toNat_le.mp (UInt32.not_lt.mp hlow)
    have hle : v.toNat ≤ 1472 := UInt32.le_iff_toNat_le.mp (UInt32.not_lt.mp hhigh)
    have hsize : v.toUInt16.toUInt32.toNat = v.toNat := by
      rw [UInt16.toNat_toUInt32, UInt32.toNat_toUInt16]
      omega
    exact { h with pktsize := hsize ▸ ⟨hge, hle⟩ }

theorem keeps_setRate (h : p.Valid) : Keeps (p.setRate optarg).val := by
  simp only [setRate]
  by_cases hu : optarg.getLast?.getD '\x00' ≠ 'K' ∧ optarg.getLast?.getD '\x00' ≠ 'M'
  · rw [if_pos hu]
    exact keeps_refuse _
  · rw [if_neg hu]
    generalize (if optarg.getLast?.getD '\x00' = 'M' then (1000 : UInt32) else 1) *
      (atoi optarg.dropLast).toUInt32 = rate
    split_ifs with hrate
    · exact keeps_refuse _
    · obtain ⟨hlow, hhigh⟩ := not_or.mp hrate
      exact
        { h with
          rateKbps :=
            ⟨UInt32.le_iff_toNat_le.mp (UInt32.not_lt.mp hlow),
              UInt32.le_iff_toNat_le.mp (UInt32.not_lt.mp hhigh)⟩ }

theorem keeps_parseOption (h : p.Valid) : Keeps (p.parseOption optarg prog c).val := by
  unfold parseOption
  split
  · exact keeps_setMode h _ _
  · exact keeps_setMode h _ _
  · exact keeps_setPort h
  · exact keeps_setCpus h
  · exact keeps_setDuration h
  · exact keeps_setInterval h
  · exact keeps_setPktsize h
  · exact keeps_setRate h
  · simpa [Keeps] using h

theorem parseOptions_valid (h : p.Valid) {p' : ProgParam}
    (hp : (p.parseOptions prog opts).val = some p') : p'.Valid := by
  induction opts generalizing p with
  | nil =>
    simp only [parseOptions] at hp
    split_ifs at hp
    exact Option.some.inj hp ▸ h
  | cons opt opts ih =>
    obtain ⟨c, optarg⟩ := opt
    have hkeeps : Keeps (p.parseOption optarg prog c).val := keeps_parseOption h
    simp only [parseOptions, Traced.bind_val] at hp
    cases hopt : (p.parseOption optarg prog c).val with
    | on p₁ =>
      rw [hopt] at hkeeps hp
      exact ih hkeeps hp
    | ret r =>
      rw [hopt] at hkeeps hp
      exact hkeeps p' hp

end ProgParam

theorem parseArgs_valid {prog : List Char} {argv : List (List Char)} {p : ProgParam}
    (h : (parseArgs prog argv).val = some p) : p.Valid :=
  ProgParam.parseOptions_valid ProgParam.valid_new h

section Digits

variable {ds : List Char}

theorem not_isSpace_of_isDigit {c : Char} (h : c.isDigit) : isSpace c = false := by
  simp only [Char.isDigit, ge_iff_le, Bool.and_eq_true, decide_eq_true_eq,
    UInt32.le_iff_toNat_le] at h
  have hlow : 48 ≤ c.toNat := h.1
  have hsp : c ≠ ' ' := by
    rintro rfl
    exact absurd hlow (by decide)
  have htab : ¬ c.toNat ≤ '\r'.toNat := fun hle => absurd (hlow.trans hle) (by decide)
  rw [isSpace, decide_eq_false hsp, decide_eq_false htab, Bool.and_false, Bool.or_false]

theorem unsign_of_isDigit (h : ∀ c ∈ ds, c.isDigit) : unsign ds = (false, ds) := by
  unfold unsign
  split
  · exact absurd (h '-' List.mem_cons_self) (by decide)
  · exact absurd (h '+' List.mem_cons_self) (by decide)
  · rfl

/-- Digits alone are read as the number they denote. -/
theorem atoi_digits (h : ∀ c ∈ ds, c.isDigit) (hlt : decimal ds < 2 ^ 63) :
    (atoi ds).toUInt32 = UInt32.ofNat (decimal ds) := by
  have hspace : ds.dropWhile isSpace = ds := by
    cases ds with
    | nil => rfl
    | cons c ds => simp [not_isSpace_of_isDigit (h c List.mem_cons_self)]
  have hall : ds.takeWhile Char.isDigit = ds := List.takeWhile_eq_self_iff.mpr h
  have hmin : min ((2 : ℤ) ^ 63 - 1) (decimal ds : ℤ) = (decimal ds : ℤ) :=
    min_eq_right (by omega)
  simp only [atoi, hspace, unsign_of_isDigit h, hall, hmin]
  rw [if_neg Bool.false_ne_true, Int32.ofInt_eq_ofNat]
  rfl

end Digits

namespace ProgParam

variable {p : ProgParam} {u : Char} {prog ds : List Char}

/-- The rate in kbps that a number and its unit denote. -/
def denoted (ds : List Char) (u : Char) : ℕ := (if u = 'M' then 1000 else 1) * decimal ds

/-- A rate is taken just where it lies in its range, and as it was given. -/
def RateExact (prog : List Char) (p : ProgParam) (ds : List Char) (u : Char) : Prop :=
  ((∃ p', (p.parseOption (ds ++ [u]) prog 'b').val = .on p') ↔
    100 ≤ denoted ds u ∧ denoted ds u ≤ 1000000) ∧
  ∀ p', (p.parseOption (ds ++ [u]) prog 'b').val = .on p' → p'.rateKbps.toNat = denoted ds u

/-- What the check sees of a rate is its remainder modulo 2 ^ 32. -/
theorem parseOption_rate (p : ProgParam) (prog : List Char) (h : ∀ c ∈ ds, c.isDigit)
    (hlt : decimal ds < 2 ^ 63) (hu : u = 'K' ∨ u = 'M') :
    (p.parseOption (ds ++ [u]) prog 'b').val =
      if 100 ≤ denoted ds u % 2 ^ 32 ∧ denoted ds u % 2 ^ 32 ≤ 1000000 then
        .on { p with rateKbps := UInt32.ofNat (denoted ds u) }
      else .ret none := by
  have hunit : ¬ (u ≠ 'K' ∧ u ≠ 'M') := by tauto
  have hrate : (if u = 'M' then (1000 : UInt32) else 1) * UInt32.ofNat (decimal ds) =
      UInt32.ofNat (denoted ds u) := by
    rw [denoted, UInt32.ofNat_mul]
    split_ifs <;> rfl
  have hlast : (ds ++ [u]).getLast?.getD '\x00' = u := by simp
  change (p.setRate (ds ++ [u])).val = _
  simp only [setRate, hlast, if_neg hunit, List.dropLast_concat, atoi_digits h hlt, hrate]
  have hlow : UInt32.ofNat (denoted ds u) < 100 ↔ denoted ds u % 2 ^ 32 < 100 := by
    rw [UInt32.lt_iff_toNat_lt, UInt32.toNat_ofNat']
    rfl
  have hhigh : UInt32.ofNat (denoted ds u) > 1000000 ↔ 1000000 < denoted ds u % 2 ^ 32 := by
    rw [gt_iff_lt, UInt32.lt_iff_toNat_lt, UInt32.toNat_ofNat']
    rfl
  by_cases hin : 100 ≤ denoted ds u % 2 ^ 32 ∧ denoted ds u % 2 ^ 32 ≤ 1000000
  · rw [if_pos hin, if_neg (by rw [hlow, hhigh]; omega)]
    rfl
  · rw [if_neg hin, if_pos (by rw [hlow, hhigh]; omega)]
    rfl

/-- A rate is parsed exactly unless it wraps around into the range. -/
theorem rate_exact_iff (h : ∀ c ∈ ds, c.isDigit) (hlt : decimal ds < 2 ^ 31)
    (hu : u = 'K' ∨ u = 'M') :
    RateExact prog p ds u ↔
      (u = 'M' → 2 ^ 32 ≤ 1000 * decimal ds →
        ¬ (100 ≤ 1000 * decimal ds % 2 ^ 32 ∧ 1000 * decimal ds % 2 ^ 32 ≤ 1000000)) := by
  have hopt := parseOption_rate p prog h (by omega) hu
  have hdenoted : u = 'M' → denoted ds u = 1000 * decimal ds := fun hM => by rw [denoted, if_pos hM]
  constructor
  · rintro ⟨haccept, -⟩ hM hge hin
    rw [hdenoted hM] at hopt haccept
    have hout := haccept.mp ⟨_, hopt.trans (if_pos hin)⟩
    omega
  · intro hsafe
    have hwhole : 100 ≤ denoted ds u % 2 ^ 32 ∧ denoted ds u % 2 ^ 32 ≤ 1000000 →
        denoted ds u < 2 ^ 32 := by
      rcases hu with rfl | rfl
      · intro _
        simp only [denoted]
        rw [if_neg (by decide)]
        omega
      · intro hin
        rw [hdenoted rfl] at hin ⊢
        by_contra hge
        exact hsafe rfl (not_lt.mp hge) hin
    have hmod : ∀ hin : 100 ≤ denoted ds u % 2 ^ 32 ∧ denoted ds u % 2 ^ 32 ≤ 1000000,
        denoted ds u % 2 ^ 32 = denoted ds u := fun hin => Nat.mod_eq_of_lt (hwhole hin)
    rw [RateExact, hopt]
    by_cases hin : 100 ≤ denoted ds u % 2 ^ 32 ∧ denoted ds u % 2 ^ 32 ≤ 1000000
    · rw [if_pos hin]
      refine ⟨iff_of_true ⟨_, rfl⟩ (hmod hin ▸ hin), ?_⟩
      rintro p' hp
      obtain rfl := Parsed.on.inj hp
      exact (UInt32.toNat_ofNat' ..).trans (hmod hin)
    · rw [if_neg hin]
      refine ⟨iff_of_false (by simp) ?_, by simp⟩
      intro hout
      rw [Nat.mod_eq_of_lt (by omega)] at hin
      exact hin hout

/-- 4294968 * 1000 is 704 modulo 2 ^ 32. -/
theorem rate_wraps :
    (parseArgs ['t'] [['-', 'c', '1', '.', '1', '.', '1', '.', '1'],
      ['-', 'b', '4', '2', '9', '4', '9', '6', '8', 'M']]).val.map rateKbps = some 704 ∧
    ¬ RateExact ['t'] new ['4', '2', '9', '4', '9', '6', '8'] 'M' := by
  refine ⟨by decide +kernel, fun h => ?_⟩
  have hrate : (new.parseOption ['4', '2', '9', '4', '9', '6', '8', 'M'] ['t'] 'b').val =
      .on { new with rateKbps := 704 } := by
    decide +kernel
  exact absurd (h.2 _ hrate) (by decide)

theorem rate_exact_iff_tenM :
    RateExact ['t'] new ['1', '0'] 'M' ↔
      ('M' = 'M' → 2 ^ 32 ≤ 1000 * decimal ['1', '0'] →
        ¬ (100 ≤ 1000 * decimal ['1', '0'] % 2 ^ 32 ∧
          1000 * decimal ['1', '0'] % 2 ^ 32 ≤ 1000000)) :=
  rate_exact_iff (by simp) (by decide +kernel) (.inr rfl)

end ProgParam

end TcpEyenet.Ttest
