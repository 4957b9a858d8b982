import TcpEyenet.Ttest.Args

/-! How a command line of ttest is written, and that `parse_args` reads from it what was meant. -/
namespace TcpEyenet.Ttest

section Numbers

variable {n : ℕ}

theorem decimal_digits (n : ℕ) : decimal (Nat.toDigits 10 n) = n := by
  have hchars : Nat.ofDigitChars 10 (Nat.toDigits 10 n) 0 = decimal (Nat.toDigits 10 n) :=
    Nat.ofDigitChars_eq_foldl
  rw [← hchars, Nat.ofDigitChars_ten_toDigits]

theorem isDigit_digits (n : ℕ) : ∀ c ∈ Nat.toDigits 10 n, c.isDigit := fun _ =>
  Nat.isDigit_of_mem_toDigits (by decide) (by decide)

/-- A number is written without leading zeros. -/
theorem digits_zero (h : (Nat.toDigits 10 n).head? = some '0') :
    (Nat.toDigits 10 n).length = 1 := by
  induction n using Nat.strong_induction_on with
  | _ n ih =>
    by_cases hn : n < 10
    · rw [Nat.toDigits_of_lt_base hn]
      rfl
    · have hge : 10 ≤ n := not_lt.mp hn
      rw [Nat.toDigits_of_base_le (by decide) hge,
        List.head?_append_of_ne_nil _ Nat.toDigits_ne_nil] at h
      have hone := ih (n / 10) (Nat.div_lt_self (by omega) (by decide)) h
      have hzero : n / 10 = 0 := by
        obtain ⟨c, hc⟩ := List.length_eq_one_iff.mp hone
        rw [hc, List.head?_cons, Option.some.injEq] at h
        rw [← decimal_digits (n / 10), hc, h]
        rfl
      omega

theorem atoi_number (v : UInt32) : (atoi (Nat.toDigits 10 v.toNat)).toUInt32 = v := by
  have hlt : v.toNat < 2 ^ 32 := v.toNat_lt
  rw [atoi_digits (isDigit_digits _) (by rw [decimal_digits]; omega), decimal_digits]
  exact UInt32.ofNat_toNat

theorem octet_digits (h : n ≤ 255) : octet (Nat.toDigits 10 n) = some n := by
  have hall : (Nat.toDigits 10 n).all Char.isDigit := List.all_eq_true.mpr (isDigit_digits n)
  rw [octet, decimal_digits, if_pos ⟨Nat.toDigits_ne_nil, hall, digits_zero, h⟩]

/-- The parts of an address, the first byte in memory first. -/
def octets (ip : UInt32) : List ℕ :=
  [ip.toNat % 256, ip.toNat / 256 % 256, ip.toNat / 65536 % 256, ip.toNat / 16777216]

/-- An address in dotted decimal. -/
def dotted (ip : UInt32) : List Char := ['.'].intercalate ((octets ip).map (Nat.toDigits 10))

theorem inetPton_dotted (ip : UInt32) : inetPton (dotted ip) = some ip := by
  have hlt : ip.toNat < 2 ^ 32 := ip.toNat_lt
  have hdot : ∀ l ∈ (octets ip).map (Nat.toDigits 10), '.' ∉ l := by
    intro l hl hmem
    obtain ⟨n, -, rfl⟩ := List.mem_map.mp hl
    exact absurd (isDigit_digits n '.' hmem) (by decide)
  have hsmall : ∀ n ∈ octets ip, n ≤ 255 := by
    simp only [octets, List.mem_cons, List.not_mem_nil, or_false]
    rintro n (rfl | rfl | rfl | rfl) <;> omega
  have hparts : ((octets ip).map (Nat.toDigits 10)).map octet = (octets ip).map some := by
    rw [List.map_map]
    exact List.map_congr_left fun n hn => octet_digits (hsmall n hn)
  have hsum : ip.toNat % 256 + 256 * (ip.toNat / 256 % 256 + 256 * (ip.toNat / 65536 % 256 +
      256 * (ip.toNat / 16777216))) = ip.toNat := by
    omega
  rw [inetPton, dotted, List.splitOn_intercalate _ hdot (by simp [octets]), hparts]
  change some (UInt32.ofNat _) = some ip
  rw [hsum, UInt32.ofNat_toNat]

end Numbers

/-- The words that spell some options: an argument is in the word of its option or in the next
one, other words may stand anywhere, and "--" ends the options. -/
inductive Spelled : List (Char × List Char) → List (List Char) → Prop
  | done : Spelled [] []
  | stop (argv : List (List Char)) : Spelled [] (['-', '-'] :: argv)
  | passed {opts : List (Char × List Char)} {argv : List (List Char)} (word : List Char)
      (hword : ∀ c cs, word ≠ '-' :: c :: cs) (h : Spelled opts argv) : Spelled opts (word :: argv)
  | joined {opts : List (Char × List Char)} {argv : List (List Char)} {c : Char}
      {optarg : List Char} (hc : c ∈ optstring) (hne : optarg ≠ []) (h : Spelled opts argv) :
      Spelled ((c, optarg) :: opts) (('-' :: c :: optarg) :: argv)
  | apart {opts : List (Char × List Char)} {argv : List (List Char)} {c : Char}
      (optarg : List Char) (hc : c ∈ optstring) (h : Spelled opts argv) :
      Spelled ((c, optarg) :: opts) (['-', c] :: optarg :: argv)

variable {opts : List (Char × List Char)} {argv : List (List Char)} {c : Char}

theorem ne_dash (hc : c ∈ optstring) : c ≠ '-' := by
  rintro rfl
  exact absurd hc (by decide)

theorem getopt_spelled (h : Spelled opts argv) : getopt argv = opts := by
  induction h with
  | done => rfl
  | stop argv => rfl
  | passed word hword h ih =>
    rw [getopt, ih]
    · exact hword '-' []
    · exact hword
  | @joined opts argv c optarg hc hne h ih =>
    cases optarg with
    | nil => exact absurd rfl hne
    | cons a as => simp [getopt, hc, ih]
  | @apart opts argv c optarg hc h ih =>
    rw [getopt]
    · rw [if_pos hc, ih]
    · exact fun hdash _ => ne_dash hc hdash

/-- The letters of the two modes. -/
def modes : List Char := ['c', 's']

namespace ProgParam

variable {p q : ProgParam} {optarg prog : List Char} {cs : List Char} {v : UInt32}

/-- The argument that an option needs for the parameters `p`. -/
def argOf (p : ProgParam) (c : Char) : List Char :=
  match c with
  | 'p' => Nat.toDigits 10 p.port.toNat
  | 'P' => Nat.toDigits 10 p.nCpus.toNat
  | 't' => Nat.toDigits 10 p.duration.toNat
  | 'i' => Nat.toDigits 10 p.reportingInterval.toNat
  | 'l' => Nat.toDigits 10 p.pktsize.toNat
  | 'b' => Nat.toDigits 10 p.rateKbps.toNat ++ ['K']
  | _ => dotted p.ip

/-- What the option should do: what it stands for is as in `p`. -/
def take (p q : ProgParam) (c : Char) : ProgParam :=
  match c with
  | 'c' => { q with mode := 1, ip := p.ip }
  | 's' => { q with mode := 2, ip := p.ip }
  | 'p' => { q with port := p.port }
  | 'P' => { q with nCpus := p.nCpus }
  | 't' => { q with duration := p.duration }
  | 'i' => { q with reportingInterval := p.reportingInterval }
  | 'l' => { q with pktsize := p.pktsize }
  | 'b' => { q with rateKbps := p.rateKbps }
  | _ => q

/-- An option is taken without a word, and leaves the mode alone unless it sets it, or it ends the
call and says something. -/
def Settled (p : ProgParam) (r : Traced Line Parsed) : Prop :=
  (∃ p', r = pure (.on p') ∧ (p'.mode = p.mode ∨ p'.mode = 1 ∨ p'.mode = 2)) ∨
    r.log ≠ [] ∧ ∃ o, r.val = .ret o

theorem settled_refuse (msg : String) : p.Settled (refuse msg) :=
  .inr ⟨List.cons_ne_nil _ _, none, rfl⟩

theorem settled_pure (h : q.mode = p.mode ∨ q.mode = 1 ∨ q.mode = 2) :
    p.Settled (pure (.on q)) :=
  .inl ⟨q, rfl, h⟩

theorem settled_ite {cond : Prop} [Decidable cond] {msg : String}
    (h : q.mode = p.mode ∨ q.mode = 1 ∨ q.mode = 2) :
    p.Settled (if cond then refuse msg else pure (.on q)) := by
  split_ifs
  · exact settled_refuse msg
  · exact settled_pure h

theorem settled_setMode {mode : UInt32} (h : mode = 1 ∨ mode = 2) (illegal : String) :
    p.Settled (p.setMode optarg mode illegal) := by
  unfold setMode
  split_ifs
  · exact settled_refuse _
  · cases inetPton optarg with
    | none => exact settled_refuse _
    | some ip => exact settled_pure (.inr h)

theorem settled_setRate : p.Settled (p.setRate optarg) := by
  simp only [setRate]
  by_cases hu : optarg.getLast?.getD '\x00' ≠ 'K' ∧ optarg.getLast?.getD '\x00' ≠ 'M'
  · rw [if_pos hu]
    exact settled_refuse _
  · rw [if_neg hu]
    exact settled_ite (.inl rfl)

theorem settled_parseOption (p : ProgParam) (optarg prog : List Char) (c : Char) :
    p.Settled (p.parseOption optarg prog c) := by
  unfold parseOption
  split
  · exact settled_setMode (.inl rfl) _
  · exact settled_setMode (.inr rfl) _
  · exact settled_ite (.inl rfl)
  · exact settled_ite (.inl rfl)
  · exact settled_ite (.inl rfl)
  · exact settled_ite (.inl rfl)
  · exact settled_ite (.inl rfl)
  · exact settled_setRate
  · exact .inr ⟨List.cons_ne_nil _ _, _, rfl⟩

theorem parseOption_eq (h : (p.parseOption optarg prog c).val = .on q) :
    p.parseOption optarg prog c = pure (.on q) := by
  rcases settled_parseOption p optarg prog c with ⟨p', hp, -⟩ | ⟨-, o, ho⟩
  · rw [hp] at h ⊢
    exact congrArg pure h
  · rw [ho] at h
    cases h

/-- Every option of valid parameters is taken as it was meant. -/
theorem parseOption_argOf (h : p.Valid) (hc : c ∈ optstring) (hmode : c ∈ modes → q.mode = 0) :
    q.parseOption (p.argOf c) prog c = pure (.on (p.take q c)) := by
  apply parseOption_eq
  simp only [optstring, List.mem_cons, List.not_mem_nil, or_false] at hc
  rcases hc with rfl | rfl | rfl | rfl | rfl | rfl | rfl | rfl
  · change (q.setMode (dotted p.ip) 1 _).val = _
    rw [setMode, if_neg (not_not.mpr (hmode (by decide))), inetPton_dotted]
    rfl
  · change (q.setMode (dotted p.ip) 2 _).val = _
    rw [setMode, if_neg (not_not.mpr (hmode (by decide))), inetPton_dotted]
    rfl
  · have hport := h.port
    change (q.setPort _ (atoi (Nat.toDigits 10 p.port.toUInt32.toNat)).toUInt32).val = _
    rw [atoi_number, setPort, if_neg]
    · rw [UInt16.toUInt16_toUInt32]
      rfl
    · simp [UInt32.lt_iff_toNat_lt, ← UInt32.toNat_inj]
      omega
  · have hrate := h.rateKbps
    have hlt := p.rateKbps.toNat_lt
    have hopt := parseOption_rate q prog (isDigit_digits p.rateKbps.toNat)
      (by rw [decimal_digits]; omega) (.inl rfl : 'K' = 'K' ∨ 'K' = 'M')
    have hdenoted : denoted (Nat.toDigits 10 p.rateKbps.toNat) 'K' = p.rateKbps.toNat := by
      rw [denoted, decimal_digits, if_neg (by decide), one_mul]
    rw [hdenoted, Nat.mod_eq_of_lt hlt, if_pos hrate, UInt32.ofNat_toNat] at hopt
    exact hopt
  · have hcpus := h.nCpus
    change (q.setCpus (atoi (Nat.toDigits 10 p.nCpus.toNat)).toUInt32).val = _
    rw [atoi_number, setCpus, if_neg, if_neg]
    · rfl
    · simp [← UInt32.toNat_inj]
      omega
    · simp [UInt32.lt_iff_toNat_lt]
      omega
  · have hduration := h.duration
    change (q.setDuration _ (atoi (Nat.toDigits 10 p.duration.toNat)).toUInt32).val = _
    rw [atoi_number, setDuration, if_neg]
    · rfl
    · simp [← UInt32.toNat_inj]
      omega
  · have hinterval := h.reportingInterval
    change (q.setInterval _ (atoi (Nat.toDigits 10 p.reportingInterval.toNat)).toUInt32).val = _
    rw [atoi_number, setInterval, if_neg]
    · rfl
    · simp [← UInt32.toNat_inj]
      omega
  · have hsize := h.pktsize
    change (q.setPktsize _ (atoi (Nat.toDigits 10 p.pktsize.toNat)).toUInt32).val = _
    have hshort : p.pktsize.toUInt16.toUInt32 = p.pktsize := by
      rw [← UInt32.toNat_inj, UInt16.toNat_toUInt32, UInt32.toNat_toUInt16]
      omega
    rw [atoi_number, setPktsize, if_neg]
    · rw [hshort]
      rfl
    · simp [UInt32.lt_iff_toNat_lt]
      omega

theorem parseOptions_cons (h : p.parseOption optarg prog c = pure (.on q)) :
    p.parseOptions prog ((c, optarg) :: opts) = q.parseOptions prog opts := by
  rw [parseOptions, h]
  rfl

/-- The letters that set each field. -/
theorem take_eq (p q : ProgParam) (c : Char) :
    p.take q c =
      { mode := if c = 'c' then 1 else if c = 's' then 2 else q.mode
        ip := if c ∈ modes then p.ip else q.ip
        port := if c ∈ ['p'] then p.port else q.port
        pktsize := if c ∈ ['l'] then p.pktsize else q.pktsize
        duration := if c ∈ ['t'] then p.duration else q.duration
        reportingInterval :=
          if c ∈ ['i'] then p.reportingInterval else q.reportingInterval
        rateKbps := if c ∈ ['b'] then p.rateKbps else q.rateKbps
        nCpus := if c ∈ ['P'] then p.nCpus else q.nCpus } := by
  unfold take
  split <;> simp_all [modes]

theorem take_mode (hc : c ∉ modes) : (p.take q c).mode = q.mode := by
  obtain ⟨hne, hne'⟩ : c ≠ 'c' ∧ c ≠ 's' := by simpa [modes] using hc
  rw [take_eq, if_neg hne, if_neg hne']

/-- The loop takes the options one after the other, if there is no more than one mode among them. -/
theorem parseOptions_argOf (h : p.Valid) (hcs : ∀ c ∈ cs, c ∈ optstring)
    (hone : (cs.filter fun c => c ∈ modes).length ≤ 1)
    (hmode : (∃ c ∈ cs, c ∈ modes) → q.mode = 0) :
    q.parseOptions prog (cs.map fun c => (c, p.argOf c)) =
      (cs.foldl p.take q).parseOptions prog [] := by
  induction cs generalizing q with
  | nil => rfl
  | cons c cs ih =>
    obtain ⟨hc, hrest⟩ := List.forall_mem_cons.mp hcs
    have hopt : q.parseOption (p.argOf c) prog c = pure (.on (p.take q c)) :=
      parseOption_argOf h hc fun hmem => hmode ⟨c, List.mem_cons_self, hmem⟩
    rw [List.map_cons, parseOptions_cons hopt, List.foldl_cons]
    by_cases hmem : c ∈ modes
    · rw [List.filter_cons, if_pos (decide_eq_true hmem), List.length_cons] at hone
      have hnone : cs.filter (fun c => c ∈ modes) = [] := List.length_eq_zero_iff.mp (by omega)
      refine ih hrest (by rw [hnone]; exact Nat.zero_le 1) ?_
      rintro ⟨c', hc', hmem'⟩
      exact absurd (decide_eq_true hmem') (List.filter_eq_nil_iff.mp hnone c' hc')
    · rw [List.filter_cons, if_neg (by simpa using hmem)] at hone
      refine ih hrest hone ?_
      rintro ⟨c', hc', hmem'⟩
      rw [take_mode hmem]
      exact hmode ⟨c', List.mem_cons_of_mem c hc', hmem'⟩

/-- A field that the letters in `L` set, and no others. -/
theorem foldl_take {α : Type} (f : ProgParam → α) (L : List Char) {a : α}
    (h : ∀ c ∈ cs, ∀ q, f (p.take q c) = if c ∈ L then a else f q) (q : ProgParam) :
    f (cs.foldl p.take q) = if ∃ c ∈ cs, c ∈ L then a else f q := by
  induction cs generalizing q with
  | nil => simp
  | cons c cs ih =>
    obtain ⟨hc, hrest⟩ := List.forall_mem_cons.mp h
    rw [List.foldl_cons, ih hrest, hc]
    by_cases hL : ∃ c' ∈ cs, c' ∈ L
    · rw [if_pos hL, if_pos]
      obtain ⟨c', hc', hmem⟩ := hL
      exact ⟨c', List.mem_cons_of_mem c hc', hmem⟩
    · rw [if_neg hL]
      refine if_congr ?_ rfl rfl
      constructor
      · exact fun hmem => ⟨c, List.mem_cons_self, hmem⟩
      · rintro ⟨c', hc', hmem⟩
        rcases List.mem_cons.mp hc' with rfl | hc'
        · exact hmem
        · exact absurd ⟨c', hc', hmem⟩ hL

/-- A field with an option of its own. -/
theorem foldl_field {α : Type} (f : ProgParam → α) (letter : Char)
    (h : ∀ q c, f (p.take q c) = if c ∈ [letter] then f p else f q)
    (hdef : letter ∉ cs → f p = f new) : f (cs.foldl p.take new) = f p := by
  rw [foldl_take f [letter] fun c _ q => h q c]
  by_cases hmem : letter ∈ cs
  · rw [if_pos ⟨letter, hmem, List.mem_singleton_self letter⟩]
  · rw [if_neg, hdef hmem]
    rintro ⟨c, hc, hL⟩
    exact hmem (List.mem_singleton.mp hL ▸ hc)

/-- What is left out has its default. -/
structure Defaulted (p : ProgParam) (cs : List Char) : Prop where
  port : 'p' ∉ cs → p.port = new.port
  pktsize : 'l' ∉ cs → p.pktsize = new.pktsize
  duration : 't' ∉ cs → p.duration = new.duration
  reportingInterval : 'i' ∉ cs → p.reportingInterval = new.reportingInterval
  rateKbps : 'b' ∉ cs → p.rateKbps = new.rateKbps
  nCpus : 'P' ∉ cs → p.nCpus = new.nCpus

def modeLetter (p : ProgParam) : Char := if p.mode = 1 then 'c' else 's'

/-- The options together give all of the parameters. -/
theorem foldl_take_new (hmode : p.mode = 1 ∨ p.mode = 2)
    (hone : cs.filter (fun c => c ∈ modes) = [p.modeLetter]) (hdef : p.Defaulted cs) :
    cs.foldl p.take new = p := by
  have hletter : ∀ c ∈ cs, c ∈ modes → c = p.modeLetter := fun c hc hmem =>
    List.mem_singleton.mp (hone ▸ List.mem_filter.mpr ⟨hc, decide_eq_true hmem⟩)
  have hset : ∃ c ∈ cs, c ∈ modes := by
    obtain ⟨hc, hmem⟩ := List.mem_filter.mp (hone ▸ List.mem_singleton_self p.modeLetter)
    exact ⟨_, hc, of_decide_eq_true hmem⟩
  have hm : (cs.foldl p.take new).mode = p.mode := by
    rw [foldl_take mode modes, if_pos hset]
    intro c hc q
    by_cases hmem : c ∈ modes
    · rw [if_pos hmem, hletter c hc hmem, modeLetter]
      rcases hmode with hmode | hmode <;> rw [hmode] <;> rfl
    · rw [if_neg hmem, take_mode hmem]
  have hip : (cs.foldl p.take new).ip = p.ip := by
    rw [foldl_take ip modes fun c _ q => congrArg ip (take_eq p q c), if_pos hset]
  have hport := foldl_field port 'p' (fun q c => congrArg port (take_eq p q c)) hdef.port
  have hsize := foldl_field pktsize 'l' (fun q c => congrArg pktsize (take_eq p q c)) hdef.pktsize
  have hduration :=
    foldl_field duration 't' (fun q c => congrArg duration (take_eq p q c)) hdef.duration
  have hinterval := foldl_field reportingInterval 'i'
    (fun q c => congrArg reportingInterval (take_eq p q c)) hdef.reportingInterval
  have hrate :=
    foldl_field rateKbps 'b' (fun q c => congrArg rateKbps (take_eq p q c)) hdef.rateKbps
  have hcpus := foldl_field nCpus 'P' (fun q c => congrArg nCpus (take_eq p q c)) hdef.nCpus
  generalize cs.foldl p.take new = q at *
  cases q
  cases p
  simp only [mk.injEq]
  exact ⟨hm, hip, hport, hsize, hduration, hinterval, hrate, hcpus⟩

/-- Where nothing is said the parameters have a mode at the end. -/
theorem parseOptions_mode (hq : q.mode = 0 ∨ q.mode = 1 ∨ q.mode = 2)
    (hp : q.parseOptions prog opts = pure (some p)) : p.mode = 1 ∨ p.mode = 2 := by
  induction opts generalizing q with
  | nil =>
    rw [parseOptions] at hp
    by_cases hzero : q.mode = 0
    · rw [if_pos hzero] at hp
      exact absurd (congrArg Traced.log hp) (List.cons_ne_nil _ _)
    · rw [if_neg hzero] at hp
      obtain rfl : q = p := Option.some.inj (congrArg Traced.val hp)
      exact hq.resolve_left hzero
  | cons opt opts ih =>
    obtain ⟨c, optarg⟩ := opt
    rcases settled_parseOption q optarg prog c with ⟨q', hq', hmode⟩ | ⟨hlog, o, ho⟩
    · rw [parseOptions_cons hq'] at hp
      refine ih ?_ hp
      rcases hmode with hmode | hmode
      · rw [hmode]
        exact hq
      · exact .inr hmode
    · have hquiet : (q.parseOption optarg prog c).log ++ _ = [] := congrArg Traced.log hp
      exact absurd (List.append_eq_nil_iff.mp hquiet).1 hlog

end ProgParam

open ProgParam

variable {p : ProgParam} {prog : List Char} {cs : List Char}

/-- Valid parameters can be given by their options in any order, each in its word or in the next,
more than once except for the mode, with others left out where they have their defaults: that is
what `parse_args` reads, and it says nothing. -/
theorem parseArgs_spelled (h : p.Valid) (hmode : p.mode = 1 ∨ p.mode = 2)
    (hcs : ∀ c ∈ cs, c ∈ optstring) (hone : cs.filter (fun c => c ∈ modes) = [p.modeLetter])
    (hdef : p.Defaulted cs) (hs : Spelled (cs.map fun c => (c, p.argOf c)) argv) :
    parseArgs prog argv = pure (some p) := by
  have hle : (cs.filter fun c => c ∈ modes).length ≤ 1 := by
    rw [hone]
    exact le_rfl
  rw [parseArgs, getopt_spelled hs, parseOptions_argOf h hcs hle fun _ => rfl,
    foldl_take_new hmode hone hdef, parseOptions, if_neg]
  rcases hmode with hmode | hmode <;> rw [hmode] <;> decide

/-- A client for port 80 of 127.0.0.1, with packets of 64 bytes. -/
def shortClient : ProgParam :=
  { ProgParam.new with
    mode := 1
    ip := 16777343
    port := 80
    pktsize := 64 }

/-- -l 64 -c 127.0.0.1 x -p80. -/
def shortLine : List (List Char) :=
  [['-', 'l'], ['6', '4'], ['-', 'c'], ['1', '2', '7', '.', '0', '.', '0', '.', '1'], ['x'],
    ['-', 'p', '8', '0']]

theorem shortLine_spelled : Spelled (['l', 'c', 'p'].map fun c => (c, shortClient.argOf c))
    shortLine := by
  have hargs : ['l', 'c', 'p'].map (fun c => (c, shortClient.argOf c)) =
      [('l', ['6', '4']), ('c', ['1', '2', '7', '.', '0', '.', '0', '.', '1']),
        ('p', ['8', '0'])] := by
    decide +kernel
  rw [hargs]
  exact .apart _ (by decide) (.apart _ (by decide) (.passed _ (by simp)
    (.joined (by decide) (by decide) .done)))

theorem parseArgs_spelled_shortLine : parseArgs ['t'] shortLine = pure (some shortClient) := by
  have hvalid : shortClient.Valid := by constructor <;> decide
  have hdef : shortClient.Defaulted ['l', 'c', 'p'] := by constructor <;> decide
  exact parseArgs_spelled hvalid (.inl rfl) (by simp [optstring]) rfl hdef shortLine_spelled

/-- `parse_args` can return just the valid parameters of a client or a server without a word. -/
theorem accepted_iff :
    (∃ argv, parseArgs prog argv = pure (some p)) ↔ p.Valid ∧ (p.mode = 1 ∨ p.mode = 2) := by
  constructor
  · rintro ⟨argv, hargv⟩
    have hval : (parseArgs prog argv).val = some p := congrArg Traced.val hargv
    have hopts : new.parseOptions prog (getopt argv) = pure (some p) := hargv
    have hnew : new.mode = 0 := rfl
    exact ⟨parseArgs_valid hval, parseOptions_mode (.inl hnew) hopts⟩
  · rintro ⟨hvalid, hmode⟩
    have hspelled : ∀ cs : List Char, (∀ c ∈ cs, c ∈ optstring) → ∃ argv,
        Spelled (cs.map fun c => (c, p.argOf c)) argv := by
      intro cs hcs
      induction cs with
      | nil => exact ⟨[], .done⟩
      | cons c cs ih =>
        obtain ⟨hc, hrest⟩ := List.forall_mem_cons.mp hcs
        obtain ⟨argv, hargv⟩ := ih hrest
        exact ⟨_, .apart (p.argOf c) hc hargv⟩
    have hletter : p.modeLetter ∈ modes := by
      rw [modeLetter]
      split_ifs <;> decide
    have hmem : p.modeLetter ∈ optstring := by
      rw [modeLetter]
      split_ifs <;> decide
    have hcs : ∀ c ∈ p.modeLetter :: ['p', 'P', 't', 'i', 'l', 'b'], c ∈ optstring :=
      List.forall_mem_cons.mpr ⟨hmem, by simp [optstring]⟩
    obtain ⟨argv, hargv⟩ := hspelled _ hcs
    refine ⟨argv, parseArgs_spelled hvalid hmode hcs ?_ ?_ hargv⟩
    · rw [List.filter_cons, if_pos (decide_eq_true hletter)]
      rfl
    · constructor <;> intro hout <;> simp at hout

end TcpEyenet.Ttest
