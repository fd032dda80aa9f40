import Xv6.SchedLog

/-!
# Printing the scheduling log

`sys_bufread` of `sysfile.c` with the part of `console.c` it prints through. The output is the list
of characters handed to `consputc`. The table is printed from slot 0 on, while `writelog` increments
`bufsize.value` before it stores: the first record is in slot 1, and the BUFSIZE-th one slot past
the end of the array.
-/
namespace Xv6.BufRead
open SchedLog List

/-- An argument word of `cprintf`: an integer, or the string it points to. -/
inductive Arg where
  | int (n : ℤ)
  | str (t : List Char)

def digit (d : ℕ) : Char := "0123456789abcdef".toList.getD d '0'

/-- The `do ... while` loop of `printint`; `buf` is filled backwards and has 16
places, which is the bound on the number of rounds. -/
def printDigits (base : ℕ) : ℕ → ℕ → List Char → List Char
  | 0,_,acc => acc
  | fuel+1,x,acc =>
    if x/base = 0 then digit (x%base)::acc
    else printDigits base fuel (x/base) (digit (x%base)::acc)

/-- `printint(xx, base, sign)`; a negative `xx` is negated as an unsigned word. -/
def printint (xx : ℤ) (base : ℕ) (sign : Bool) : List Char :=
  if sign ∧ xx < 0 then '-' :: printDigits base 16 ((-xx)%2^32).toNat []
  else printDigits base 16 (xx%2^32).toNat []

/-- The format loop of `cprintf`. The callers here pass an argument of the
right kind for every directive; anything else is printed as it stands. -/
def cprintf : List Char → List Arg → List Char
  | [],_ => []
  | ['%'],_ => []
  | '%' :: 'd' :: fmt,.int n::args => printint n 10 true++cprintf fmt args
  | '%' :: 'x' :: fmt,.int n::args => printint n 16 false++cprintf fmt args
  | '%' :: 'p' :: fmt,.int n::args => printint n 16 false++cprintf fmt args
  | '%' :: 's' :: fmt,.str t::args => t++cprintf fmt args
  | '%' :: '%' :: fmt,args => '%' :: cprintf fmt args
  | c::fmt,args => c::cprintf fmt args

/-- `convert_to_hexa` fills `hex[7]` down to `hex[0]`. -/
def hexLoop : ℕ → UInt32 → List Char → List Char
  | 0,_,acc => acc
  | i+1,n,acc =>
    let d := (n%16).toNat
    hexLoop i (n/16) ((if d < 10 then Char.ofNat (48+d) else Char.ofNat (65+d-10))::acc)

def convertToHexa (n : UInt32) : List Char := hexLoop 8 n []

def clockText (cl : Clock) (sep : String) : List Char :=
  cprintf "%s".toList [.str (convertToHexa cl.hi)]++
    cprintf ("%s"++sep).toList [.str (convertToHexa cl.lo)]

def nameText (n : Name) : List Char :=
  (n.toList.takeWhile (· ≠ 0)).map fun b => Char.ofNat b.toNat

def eventRow (e : Entry) : List Char :=
  clockText e.clock ","++cprintf "%d,%s,%d,%d,%d,%d\n".toList
    [.int e.pid,.str (nameText e.name),.int e.eventName.code,
      .int e.prevPstate.code,.int e.nextPstate.code,.int e.cpu]

def eventRows (b : Log) : List (List Char) :=
  (range BUFSIZE).map fun i => eventRow (b.bufLog i)

def clockRow (clockLog : ℕ → Fin 3 → Clock) (i : ℕ) : List Char :=
  cprintf "%d,".toList [.int i]++clockText (clockLog i 0) ","++
    clockText (clockLog i 1) ","++clockText (clockLog i 2) "\n"

def sysBufread (b : Log) (clockLog : ℕ → Fin 3 → Clock) : List Char :=
  cprintf "clock,pid,pname,event_name,pstate_prev,pstate_next,cpu\n".toList []++
    (eventRows b).flatten++cprintf "\n".toList []++
    cprintf "pid,fork,run,exit\n".toList []++
    ((range 64).map (clockRow clockLog)).flatten++
    cprintf "\nstart clock : ".toList []++clockText (b.bufLog 1).clock "\n"++
    cprintf "end   clock : ".toList []++clockText b.endClock "\n"++cprintf "\n".toList []

/-- A call that passes the recording filter once `finished_fork` is set. -/
structure Call where
  clock : Clock
  cpu : ℕ
  pid : ℤ
  pname : Name
  event : Event
  prev : ProcState
  next : ProcState
  named : isBufwrite pname = true
  tagged : pid ≠ -1

def Call.entry (c : Call) : Entry := ⟨c.clock,c.pid,c.pname,c.event,c.prev,c.next,c.cpu⟩

def Call.apply (c : Call) (b : Log) : Log :=
  writelog b c.clock c.cpu c.pid c.pname c.event c.prev c.next

def Call.store (c : Call) (b : Log) : Option ℕ :=
  if (c.apply b).bufsize = b.bufsize then none else some (c.apply b).bufsize

/-- The log when recording starts: `finished_fork` set, nothing recorded. -/
def Log.started : Log := {Log.boot with finishedFork := true}

/-- All stores into `buf_log` of a sequence of calls. -/
def stores : Log → List Call → List ℕ
  | _,[] => []
  | b,c::cs => (c.store b).toList++stores (c.apply b) cs

/-- Every store is inside the array, and the table starts with the first
`min k BUFSIZE` records in call order. -/
def Agreement (calls : List Call) : Prop :=
  (∀ i ∈ stores Log.started calls, i < BUFSIZE) ∧
    (eventRows (calls.foldl (fun b c => c.apply b) Log.started)).take (min calls.length BUFSIZE) =
      (calls.take BUFSIZE).map fun c => eventRow c.entry

theorem Call.apply_bufLog_zero (b : Log) (c : Call) : (c.apply b).bufLog 0 = b.bufLog 0 := by
  unfold Call.apply writelog
  split_ifs <;> simp

theorem foldl_bufLog_zero (calls : List Call) (b : Log) :
    (calls.foldl (fun b c => c.apply b) b).bufLog 0 = b.bufLog 0 := by
  induction calls generalizing b with
  | nil => rfl
  | cons c cs ih => rw [foldl_cons,ih,c.apply_bufLog_zero]

theorem nameText_of_isBufwrite {n : Name} (h : isBufwrite n = true) : 'b' ∈ nameText n := by
  unfold nameText
  unfold isBufwrite at h
  cases hn : n.toList with
  | nil => simp [hn,mystrcmp,bufwriteBytes] at h
  | cons x =>
    have hx : x = 98 := by
      rw [hn] at h
      simp only [bufwriteBytes,mystrcmp,beq_iff_eq] at h
      split_ifs at h with hx
      · exact hx.2
      · apply UInt8.toNat_inj.mp
        simp only [UInt8.toNat_ofNat] at h ⊢
        omega
    subst hx
    simp [takeWhile]

theorem eventRow_text (e : Entry) : eventRow e = clockText e.clock ","++(printint e.pid 10 true++
    ',' :: (nameText e.name++ ',' :: (printint e.eventName.code 10 true++
      ',' :: (printint e.prevPstate.code 10 true++ ',' :: (printint e.nextPstate.code 10 true++
        ',' :: (printint e.cpu 10 true++['\n'])))))) := rfl

theorem eventRow_zero_ne (c : Call) : eventRow Entry.zero ≠ eventRow c.entry := by
  intro h
  have hb : 'b' ∈ eventRow c.entry := by
    rw [eventRow_text]
    simp [nameText_of_isBufwrite c.named,Call.entry]
  have hz : 'b' ∉ eventRow Entry.zero := by decide +kernel
  exact hz (h ▸ hb)

theorem not_agreement_cons (c : Call) (cs : List Call) : ¬ Agreement (c::cs) := by
  rintro ⟨_,h⟩
  have hpos : 0 < min (c::cs).length BUFSIZE := by simp [BUFSIZE]
  have hhead := congrArg (fun l => l[0]?) h
  simp only [eventRows,getElem?_take_of_lt hpos,getElem?_map] at hhead
  rw [getElem?_range (by simp [BUFSIZE]),getElem?_take_of_lt (by simp [BUFSIZE])] at hhead
  simp only [Option.map_some,getElem?_cons_zero,Option.some.injEq, foldl_bufLog_zero] at hhead
  exact eventRow_zero_ne c hhead

/-- The table agrees with the calls exactly when there was no call. From the
first one on, an unrecorded row leads the table; from the BUFSIZE-th on, a
record is also stored outside the array. -/
theorem agreement_iff_nil (calls : List Call) : Agreement calls ↔ calls = [] := by
  cases calls with
  | nil => simp [Agreement,stores]
  | cons => simp [not_agreement_cons]

def firstTick : Call where
  clock := ⟨0,1⟩
  cpu := 0
  pid := 3
  pname := Name.ofString "bufwrite"
  event := .tick
  prev := .runnable
  next := .running
  named := by decide +kernel
  tagged := by decide

theorem firstTick_not_agreement : ¬ Agreement [firstTick] := not_agreement_cons firstTick []

/-! ## Reading a clock back -/

def hexText (cl : Clock) : List Char := convertToHexa cl.hi++convertToHexa cl.lo

def hexValue (c : Char) : Option ℕ :=
  if '0' ≤ c ∧ c ≤ '9' then some (c.toNat-48)
  else if 'A' ≤ c ∧ c ≤ 'F' then some (c.toNat-55)
  else if 'a' ≤ c ∧ c ≤ 'f' then some (c.toNat-87)
  else none

/-- `int(x, 16)` of the scripts, for a text of digits. -/
def int16 (t : List Char) : Option ℕ :=
  if t = [] then none else t.foldlM (fun v c => (hexValue c).map fun d => 16*v+d) 0

def hexChar (d : ℕ) : Char := if d < 10 then Char.ofNat (48+d) else Char.ofNat (65+d-10)

def hexDigits : ℕ → ℕ → List ℕ
  | 0,_ => []
  | k+1,n => hexDigits k (n/16)++[n%16]

theorem hexLoop_eq (k : ℕ) (n : UInt32) (acc : List Char) :
    hexLoop k n acc = (hexDigits k n.toNat).map hexChar++acc := by
  induction k generalizing n acc with
  | zero => rfl
  | succ k ih => simp [hexLoop,hexDigits,hexChar,ih]

theorem length_hexDigits (k n : ℕ) : (hexDigits k n).length = k := by
  induction k generalizing n with
  | zero => rfl
  | succ k ih => simp [hexDigits,ih]

theorem hexDigits_lt {k n d : ℕ} (hd : d ∈ hexDigits k n) : d < 16 := by
  induction k generalizing n with
  | zero => cases hd
  | succ k ih =>
    rcases List.mem_append.mp hd with hd | hd
    · exact ih hd
    · rw [mem_singleton.mp hd]
      exact Nat.mod_lt _ (by decide)

def hexNumber (ds : List ℕ) : ℕ := ds.foldl (fun v d => 16*v+d) 0

theorem hexNumber_digits (k n : ℕ) : hexNumber (hexDigits k n) = n%16^k := by
  induction k generalizing n with
  | zero => simp [hexDigits,hexNumber,Nat.mod_one]
  | succ k ih =>
    have hlast : hexNumber (hexDigits (k+1) n) = 16*hexNumber (hexDigits k (n/16))+n%16 := by
      simp [hexDigits,hexNumber]
    rw [hlast,ih,pow_succ',Nat.mod_mul,Nat.add_comm]

theorem foldl_hexNumber (ds : List ℕ) (v : ℕ) :
    ds.foldl (fun v d => 16*v+d) v = 16^ds.length*v+hexNumber ds := by
  induction ds generalizing v with
  | nil => simp [hexNumber]
  | cons d ds ih =>
    have hcons : hexNumber (d::ds) = 16^ds.length*(16*0+d)+hexNumber ds := ih _
    rw [foldl_cons,ih,hcons,length_cons,pow_succ]
    ring

theorem hexNumber_append (ds es : List ℕ) :
    hexNumber (ds++es) = 16^es.length*hexNumber ds+hexNumber es := by
  rw [hexNumber,foldl_append,foldl_hexNumber]
  rfl

theorem hexNumber_cons (d : ℕ) (ds : List ℕ) : hexNumber (d::ds) = 16^ds.length*d+hexNumber ds := by
  simpa [hexNumber] using hexNumber_append [d] ds

theorem hexNumber_lt {ds : List ℕ} (hd : ∀ d ∈ ds, d < 16) : hexNumber ds < 16^ds.length := by
  induction ds with
  | nil => decide
  | cons d ds ih =>
    obtain ⟨hd,hds⟩ := forall_mem_cons.mp hd
    have htail := ih hds
    have hle : 16^ds.length*(d+1) ≤ 16^ds.length*16 := Nat.mul_le_mul_left _ hd
    rw [hexNumber_cons,length_cons,pow_succ]
    rw [Nat.mul_succ] at hle
    omega

theorem hexValue_hexChar {d : ℕ} (hd : d < 16) : hexValue (hexChar d) = some d := by
  interval_cases d <;> decide

theorem foldlM_hexChar {ds : List ℕ} (hd : ∀ d ∈ ds, d < 16) (v : ℕ) :
    (ds.map hexChar).foldlM (fun v c => (hexValue c).map fun d => 16*v+d) v =
      some (ds.foldl (fun v d => 16*v+d) v) := by
  induction ds generalizing v with
  | nil => rfl
  | cons d ds ih =>
    obtain ⟨hd,hds⟩ := forall_mem_cons.mp hd
    rw [map_cons,foldlM_cons,hexValue_hexChar hd]
    exact ih hds _

theorem hexChar_lt {d e : ℕ} (hd : d < 16) (he : e < 16) : hexChar d < hexChar e ↔ d < e := by
  have h : ∀ d < 16, ∀ e < 16, hexChar d < hexChar e ↔ d < e := by decide
  exact h d hd e he

theorem map_hexChar_lt {ds es : List ℕ} (hlen : ds.length = es.length) (hd : ∀ d ∈ ds, d < 16)
    (he : ∀ e ∈ es, e < 16) : ds.map hexChar < es.map hexChar ↔ hexNumber ds < hexNumber es := by
  induction ds generalizing es with
  | nil =>
    obtain rfl := length_eq_zero_iff.mp hlen.symm
    simp [hexNumber]
  | cons d ds ih =>
    obtain ⟨e,es,rfl⟩ := exists_cons_of_length_eq_add_one hlen.symm
    obtain ⟨hd,hds⟩ := forall_mem_cons.mp hd
    obtain ⟨he,hes⟩ := forall_mem_cons.mp he
    have hlen' : ds.length = es.length := by simpa using hlen
    have h1 := hexNumber_lt hds
    have h2 := hexNumber_lt hes
    rw [map_cons,map_cons,cons_lt_cons_iff,hexChar_lt hd he,ih hlen' hds hes,
      hexNumber_cons,hexNumber_cons]
    rw [hlen'] at h1 ⊢
    rcases Nat.lt_trichotomy d e with hde | rfl | hde
    · have hle := Nat.mul_le_mul_left (16^es.length) hde
      rw [Nat.mul_succ] at hle
      simp only [hde,true_or,true_iff]
      omega
    · simp
    · have hle := Nat.mul_le_mul_left (16^es.length) hde
      have hne : hexChar d ≠ hexChar e := fun h => by
        have := hexValue_hexChar hd
        rw [h,hexValue_hexChar he] at this
        cases this
        exact lt_irrefl _ hde
      rw [Nat.mul_succ] at hle
      simp only [hde.not_gt,hne,false_and,or_false,false_iff]
      omega

def clockDigits (cl : Clock) : List ℕ := hexDigits 8 cl.hi.toNat++hexDigits 8 cl.lo.toNat

theorem hexText_eq (cl : Clock) : hexText cl = (clockDigits cl).map hexChar := by
  simp [hexText,convertToHexa,hexLoop_eq,clockDigits]

theorem clockDigits_lt {cl : Clock} {d : ℕ} (hd : d ∈ clockDigits cl) : d < 16 :=
  (List.mem_append.mp hd).elim hexDigits_lt hexDigits_lt

theorem length_clockDigits (cl : Clock) : (clockDigits cl).length = 16 := by
  simp [clockDigits,length_hexDigits]

def clockValue (cl : Clock) : ℕ := cl.hi.toNat*2^32+cl.lo.toNat

theorem hexNumber_clockDigits (cl : Clock) : hexNumber (clockDigits cl) = clockValue cl := by
  have hhi := cl.hi.toNat_lt
  have hlo := cl.lo.toNat_lt
  rw [clockDigits,hexNumber_append,hexNumber_digits,hexNumber_digits,length_hexDigits,clockValue]
  omega

theorem int16_hexText (cl : Clock) : int16 (hexText cl) = some (clockValue cl) := by
  have hne : (clockDigits cl).map hexChar ≠ [] := by
    rw [ne_eq,map_eq_nil_iff,← length_eq_zero_iff,length_clockDigits]
    decide
  rw [int16,hexText_eq,if_neg hne,foldlM_hexChar fun _ hd => clockDigits_lt hd]
  exact congrArg some (hexNumber_clockDigits cl)

/-- A clock is printed as the 16 digits of its value, from which the scripts
read the value back, and the texts of two clocks compare as their values. -/
theorem clock_text (cl cl' : Clock) :
    clockText cl "," = hexText cl++[','] ∧ clockText cl "\n" = hexText cl++['\n'] ∧
      (hexText cl).length = 16 ∧ int16 (hexText cl) = some (cl.hi.toNat*2^32+cl.lo.toNat) ∧
      (hexText cl < hexText cl' ↔ cl.hi.toNat*2^32+cl.lo.toNat < cl'.hi.toNat*2^32+cl'.lo.toNat) := by
  refine ⟨by simp [clockText,cprintf,hexText],by simp [clockText,cprintf,hexText],?_,
    int16_hexText cl,?_⟩
  · rw [hexText_eq,length_map,length_clockDigits]
  · rw [hexText_eq,hexText_eq,map_hexChar_lt
      ((length_clockDigits cl).trans (length_clockDigits cl').symm)
      (fun _ hd => clockDigits_lt hd) fun _ hd => clockDigits_lt hd,
      hexNumber_clockDigits,hexNumber_clockDigits]
    rfl

end Xv6.BufRead
