import Xv6.Monitor
import Xv6.Tally

/-!
# The console's line discipline

`consoleintr` edits the current line in a ring of `INPUT_BUF` characters and commits it at a
newline, at `^D` or when the ring is full; any number of processes take committed characters in
`consoleread`. The indices run freely modulo `2^32`. An interrupt is a thread that works off the
characters of its `getc`. The unlocking of the inode around `consoleread` and the listing of `^P`
are left out.

`Line` is what the ring is for: committed text, the line under way and the number of characters
taken.
-/
namespace Xv6.Console
open Machine Monitor Function List

def INPUT_BUF : ℕ := 128

def ctrlD : ℕ := 4
def ctrlH : ℕ := 8
def newline : ℕ := 10
def carriageReturn : ℕ := 13
def ctrlP : ℕ := 16
def ctrlU : ℕ := 21
def delete : ℕ := 127

/-! ### What the ring is for -/

inductive Event where
  | typed (c : ℕ)
  | take
deriving DecidableEq

structure Line where
  committed : List ℕ
  line : List ℕ
  taken : ℕ

def Line.used (L : Line) : ℕ := L.committed.length-L.taken+L.line.length

def Line.add (L : Line) (c : ℕ) : Line :=
  if c = newline ∨ c = ctrlD ∨ L.used+1 = INPUT_BUF then
    {L with committed := L.committed++(L.line++[c]), line := []}
  else {L with line := L.line++[c]}

def Line.step (L : Line) : Event → Line
  | .typed c =>
    if c = ctrlP then L
    else if c = ctrlU then {L with line := []}
    else if c = ctrlH ∨ c = delete then {L with line := L.line.dropLast}
    else if c ≠ 0 ∧ L.used < INPUT_BUF then L.add (if c = carriageReturn then newline else c)
    else L
  | .take => {L with taken := L.taken+1}

def Line.after (es : List Event) : Line := es.foldl Line.step ⟨[],[],0⟩

theorem Line.after_concat (es : List Event) (e : Event) :
    Line.after (es++[e]) = (Line.after es).step e := by simp [Line.after]

theorem Line.committed_step (L : Line) (e : Event) : L.committed <+: (L.step e).committed := by
  cases e with
  | take => exact prefix_refl _
  | typed =>
    unfold Line.step Line.add
    dsimp only
    split_ifs <;> simp

theorem Line.taken_step (L : Line) (e : Event) : L.taken ≤ (L.step e).taken := by
  cases e with
  | take => exact Nat.le_succ _
  | typed =>
    unfold Line.step Line.add
    dsimp only
    split_ifs <;> exact le_rfl

/-! ### The ring -/

/-- `input`, with the history of the characters and takes, and the places in the committed
text of the characters that calls have returned. -/
structure Input where
  buf : ℕ → ℕ
  r : ℕ
  w : ℕ
  e : ℕ
  history : List Event
  returned : List ℕ

def Input.line (p : Input) : Line := Line.after p.history

def Input.record (p : Input) (ev : Event) : Input := {p with history := p.history++[ev]}

/-- Points of the code after `acquire(&cons.lock)`. A reader also carries the places of the
characters in `dst`. -/
inductive Point where
  | consoleread (target n : ℤ) (dst places : List ℕ)
  | done (target n : ℤ) (dst places : List ℕ)
  | consoleintr (chars : List ℕ)
  | killLine (chars : List ℕ)
  | commit (chars : List ℕ)

def Input.store (p : Input) (c : ℕ) : Input :=
  {p with buf := update p.buf (p.e%INPUT_BUF) c, e := (p.e+1)%2^32}

def input (p : Input) (c : ℕ) (chars : List ℕ) : Act Input Point Unit ℤ :=
  if c = ctrlP then .goto p (.consoleintr chars)
  else if c = ctrlU then .goto p (.killLine chars)
  else if c = ctrlH ∨ c = delete then
    .goto (if p.e ≠ p.w then {p with e := (p.e+2^32-1)%2^32} else p) (.consoleintr chars)
  else if c ≠ 0 ∧ (p.e+2^32-p.r)%2^32 < INPUT_BUF then
    let c := if c = carriageReturn then newline else c
    let p := p.store c
    if c = newline ∨ c = ctrlD ∨ p.e = (p.r+INPUT_BUF)%2^32 then
      .goto {p with w := p.e} (.commit chars)
    else .goto p (.consoleintr chars)
  else .goto p (.consoleintr chars)

/-- `consoleread` takes the next character; a `^D` behind other characters is put back. -/
def takeChar (p : Input) (target n : ℤ) (dst places : List ℕ) : Act Input Point Unit ℤ :=
  let c := p.buf (p.r%INPUT_BUF)
  let q := {p with r := (p.r+1)%2^32}
  if c = ctrlD then
    if n < target then .goto {q with r := (q.r+2^32-1)%2^32} (.done target n dst places)
    else .goto (q.record .take) (.done target n dst places)
  else
    let places := places++[p.line.taken]
    if c = newline then .goto (q.record .take) (.done target (n-1) (dst++[c]) places)
    else .goto (q.record .take) (.consoleread target (n-1) (dst++[c]) places)

def code (p : Input) (killed : Bool) : Point → Act Input Point Unit ℤ
  | .consoleread target n dst places =>
    if 0 < n then
      if p.r = p.w then
        if killed then .leave p (-1) else .sleep () (.consoleread target n dst places)
      else takeChar p target n dst places
    else .goto p (.done target n dst places)
  | .done target n _ places => .leave {p with returned := p.returned++places} (target-n)
  | .consoleintr [] => .leave p 0
  | .consoleintr (c::chars) => input (p.record (.typed c)) c chars
  | .killLine chars =>
    if p.e ≠ p.w ∧ p.buf ((p.e+2^32-1)%2^32%INPUT_BUF) ≠ newline then
      .goto {p with e := (p.e+2^32-1)%2^32} (.killLine chars)
    else .goto p (.consoleintr chars)
  | .commit chars => .wakeup () (.consoleintr chars)

section
variable {n : ℕ}

abbrev ConsoleState (n : ℕ) := State (Fin n) Input Point Unit

def enabled (_ : ConsoleState n) (_ : Fin n) : Point → Bool
  | .consoleread target m [] [] => m = target
  | .consoleintr chars => chars.all (· < 256)
  | _ => false

def system (n : ℕ) : System (Fin n) Input Point Unit ℤ Empty where
  code := code
  enabled := enabled
  env _ e := nomatch e

def init (n : ℕ) : ConsoleState n where
  data := ⟨fun _ => 0,0,0,0,[],[]⟩
  lock := none
  ptable := none
  thread _ := .out
  killed _ := false

/-- The ring holds the text of `L` that is not taken, with `line` for the line under way. -/
structure Holds (p : Input) (L : Line) (line : List ℕ) : Prop where
  taken : L.taken ≤ L.committed.length
  r : p.r = L.taken%2^32
  w : p.w = L.committed.length%2^32
  e : p.e = (L.committed.length+line.length)%2^32
  room : L.committed.length-L.taken+line.length ≤ INPUT_BUF
  full : L.committed.length-L.taken+line.length = INPUT_BUF → line = []
  plain : newline ∉ line
  chars : ∀ k, L.taken ≤ k → (hk : k < (L.committed++line).length) →
    p.buf (k%INPUT_BUF) = (L.committed++line)[k]

theorem Holds.e_eq_w_iff {p : Input} {L : Line} {line : List ℕ} (h : Holds p L line) :
    p.e = p.w ↔ line = [] := by
  have hroom := h.room
  rw [h.e,h.w,← length_eq_zero_iff]
  simp only [INPUT_BUF] at hroom
  omega

theorem Holds.r_eq_w_iff {p : Input} {L : Line} {line : List ℕ} (h : Holds p L line) :
    p.r = p.w ↔ L.taken = L.committed.length := by
  have hroom := h.room
  have htaken := h.taken
  rw [h.r,h.w]
  simp only [INPUT_BUF] at hroom
  omega

theorem Holds.used_eq {p : Input} {L : Line} {line : List ℕ} (h : Holds p L line) :
    (p.e+2^32-p.r)%2^32 = L.committed.length-L.taken+line.length := by
  have hroom := h.room
  have htaken := h.taken
  rw [h.e,h.r]
  simp only [INPUT_BUF] at hroom
  omega

theorem Holds.erase {p : Input} {L : Line} {line : List ℕ} (h : Holds p L line) (hne : line ≠ []) :
    Holds {p with e := (p.e+2^32-1)%2^32} L line.dropLast := by
  have hlen : line.dropLast.length+1 = line.length := by
    have := length_pos_of_ne_nil hne
    rw [length_dropLast]
    omega
  have hroom := h.room
  refine ⟨h.taken,h.r,h.w,?_,by omega,by omega,fun hm => h.plain (mem_of_mem_dropLast hm),?_⟩
  · simp only [h.e]
    omega
  · intro k hk hlt
    have hlt' : k < (L.committed++line).length := by
      simp only [length_append] at hlt ⊢
      omega
    rw [h.chars k hk hlt']
    by_cases hc : k < L.committed.length
    · rw [getElem_append_left hc,getElem_append_left hc]
    · rw [getElem_append_right (by omega),getElem_append_right (by omega), getElem_dropLast]

/-- The last character of the line, as the code of `^U` reads it. -/
theorem Holds.last_ne {p : Input} {L : Line} {line : List ℕ} (h : Holds p L line) (hne : line ≠ []) :
    p.buf ((p.e+2^32-1)%2^32%INPUT_BUF) ≠ newline := by
  have hpos := length_pos_of_ne_nil hne
  have htaken := h.taken
  have hk : (p.e+2^32-1)%2^32%INPUT_BUF = (L.committed.length+(line.length-1))%INPUT_BUF := by
    rw [h.e]
    simp only [INPUT_BUF]
    omega
  have hlt : L.committed.length+(line.length-1) < (L.committed++line).length := by
    rw [length_append]
    omega
  rw [hk,h.chars _ (by omega) hlt,getElem_append_right (by omega)]
  intro he
  exact h.plain (he ▸ getElem_mem _)

theorem Holds.store_chars {p : Input} {L : Line} {line : List ℕ} (h : Holds p L line)
    (hroom : L.committed.length-L.taken+line.length < INPUT_BUF) (c k : ℕ) (hk : L.taken ≤ k)
    (hlt : k < (L.committed++(line++[c])).length) :
    (p.store c).buf (k%INPUT_BUF) = (L.committed++(line++[c]))[k] := by
  have htaken := h.taken
  have hidx : p.e%INPUT_BUF = (L.committed.length+line.length)%INPUT_BUF := by
    rw [h.e]
    simp only [INPUT_BUF]
    omega
  simp only [Input.store,hidx]
  simp only [← append_assoc] at hlt ⊢
  by_cases hkl : k < (L.committed++line).length
  · have hne : k%INPUT_BUF ≠ (L.committed.length+line.length)%INPUT_BUF := by
      rw [length_append] at hkl
      simp only [INPUT_BUF] at hroom ⊢
      omega
    rw [update_of_ne hne,getElem_append_left hkl]
    exact h.chars k hk hkl
  · obtain rfl : k = L.committed.length+line.length := by
      simp only [length_append,length_singleton] at hlt hkl
      omega
    rw [update_self,getElem_append_right (by simp)]
    simp

theorem Holds.store {p : Input} {L : Line} {line : List ℕ} (h : Holds p L line) {c : ℕ}
    (hc : c ≠ newline) (hroom : L.committed.length-L.taken+line.length+1 < INPUT_BUF) :
    Holds (p.store c) L (line++[c]) := by
  refine ⟨h.taken,h.r,h.w,?_,?_,?_,?_,h.store_chars (by omega) c⟩
  · simp only [Input.store,h.e,length_append,length_singleton]
    omega
  · rw [length_append,length_singleton]
    omega
  · rw [length_append,length_singleton]
    omega
  · simpa [h.plain] using hc.symm

theorem Holds.commit {p : Input} {L : Line} {line : List ℕ} (h : Holds p L line) (c : ℕ)
    (hroom : L.committed.length-L.taken+line.length < INPUT_BUF) :
    Holds {p.store c with w := (p.store c).e}
      {L with committed := L.committed++(line++[c]), line := []} [] := by
  have htaken := h.taken
  have he : (p.store c).e = (L.committed++(line++[c])).length%2^32 := by
    simp only [Input.store,h.e,length_append,length_singleton]
    omega
  refine ⟨?_,h.r,he,by simpa using he,?_,fun _ => rfl,by simp,?_⟩
  · simp only [length_append]
    omega
  · simp only [length_append,length_singleton,length_nil]
    omega
  · intro k hk hlt
    simp only [append_nil] at hlt ⊢
    exact h.store_chars hroom c k hk hlt

theorem Holds.next {p : Input} {L : Line} {line : List ℕ} (h : Holds p L line) (hne : p.r ≠ p.w) :
    L.taken < L.committed.length ∧ L.committed[L.taken]? = some (p.buf (p.r%INPUT_BUF)) := by
  have hlt : L.taken < L.committed.length := lt_of_le_of_ne h.taken fun he => hne (h.r_eq_w_iff.mpr he)
  have hidx : p.r%INPUT_BUF = L.taken%INPUT_BUF := by
    rw [h.r]
    simp only [INPUT_BUF]
    omega
  refine ⟨hlt,?_⟩
  rw [hidx,h.chars L.taken le_rfl (by rw [length_append]; omega),getElem_append_left hlt,
    getElem?_eq_getElem hlt]

theorem Holds.take {p : Input} {L : Line} {line : List ℕ} (h : Holds p L line)
    (hlt : L.taken < L.committed.length) :
    Holds {p with r := (p.r+1)%2^32} {L with taken := L.taken+1} line := by
  have hroom := h.room
  refine ⟨hlt,?_,h.w,h.e,?_,?_,h.plain,fun k hk => h.chars k (Nat.le_of_succ_le hk)⟩
  · simp only [h.r]
    omega
  · simp only
    omega
  · simp only
    omega

def Input.Good (p : Input) : Prop := Holds p p.line p.line.line


theorem Input.line_concat {p q : Input} {ev : Event} (h : q.history = p.history++[ev]) :
    q.line = p.line.step ev := by
  rw [Input.line,h,Line.after_concat]
  rfl

theorem Input.line_congr {p q : Input} (h : q.history = p.history) : q.line = p.line := by
  rw [Input.line,h,Input.line]

def Line.le (L M : Line) : Prop := L.committed <+: M.committed ∧ L.taken ≤ M.taken

theorem Line.le_refl (L : Line) : L.le L := ⟨prefix_refl _,le_rfl⟩

theorem Line.le_step (L : Line) (e : Event) : L.le (L.step e) := ⟨L.committed_step e,L.taken_step e⟩

/-- `dst` holds the committed characters at `places`, in their order. -/
structure Text (L : Line) (dst places : List ℕ) : Prop where
  chars : places.map (L.committed[·]?) = dst.map some
  order : places.Pairwise (· < ·)
  taken : ∀ k ∈ places, k < L.taken
  plain : ctrlD ∉ dst

theorem Text.mono {L M : Line} {dst places : List ℕ} (h : Text L dst places) (hle : L.le M) :
    Text M dst places := by
  refine ⟨?_,h.order,fun k hk => (h.taken k hk).trans_le hle.2,h.plain⟩
  rw [← h.chars]
  refine map_congr_left fun k hk => ?_
  have hmem : L.committed[k]? ∈ dst.map some := h.chars ▸ mem_map_of_mem hk
  obtain ⟨c,-,hc⟩ := mem_map.mp hmem
  obtain ⟨t,ht⟩ := hle.1
  have hlt := (List.getElem?_eq_some_iff.mp hc.symm).1
  rw [← ht,getElem?_append_left hlt]

theorem Text.take {L : Line} {dst places : List ℕ} {c : ℕ} (h : Text L dst places)
    (hc : L.committed[L.taken]? = some c) (hd : c ≠ ctrlD) :
    Text (L.step .take) (dst++[c]) (places++[L.taken]) := by
  refine ⟨?_,?_,?_,by simpa [h.plain] using hd.symm⟩
  · simp [Line.step,h.chars,hc]
  · rw [pairwise_append]
    exact ⟨h.order,pairwise_singleton _ _,fun a ha b hb => by
      rw [mem_singleton.mp hb]
      exact h.taken a ha⟩
  · intro k hk
    rcases List.mem_append.mp hk with hk | hk
    · exact (h.taken k hk).trans (Nat.lt_succ_self _)
    · rw [mem_singleton.mp hk]
      exact Nat.lt_succ_self _

def Reads (L : Line) (target m : ℤ) (dst places : List ℕ) : Prop :=
  Text L dst places ∧ m = target-dst.length

def assertions : Assertions Unit Input Point Unit where
  free p := p.Good
  holds
    | .consoleread target m dst places,p | .done target m dst places,p =>
      p.Good ∧ Reads p.line target m dst places
    | .consoleintr _,p | .commit _,p => p.Good
    | .killLine _,p => p.line.line = [] ∧ ∃ line, Holds p p.line line
  waiting
    | .consoleread target m dst places,p => Reads p.line target m dst places
    | .consoleintr _,_ => True
    | _,_ => False
  sleeping
    | (),.consoleread target m dst places,p => Reads p.line target m dst places
    | _,_,_ => False
  claims _ _ := False

theorem frame_of_le {others : Point → Prop} {mine : Unit → Prop} {p q : Input}
    (h : p.line.le q.line) : assertions.Frame others mine p q := by
  refine ⟨fun l _ hl => ?_,fun c l _ hl => ?_,fun _ h => h.elim⟩
  · cases l with
    | consoleread => exact ⟨hl.1.mono h,hl.2⟩
    | _ => exact hl
  · cases l with
    | consoleread => exact ⟨hl.1.mono h,hl.2⟩
    | _ => exact hl

theorem Holds.congr {p q : Input} {L M : Line} {line : List ℕ} (h : Holds p L line)
    (hb : q.buf = p.buf) (hr : q.r = p.r) (hw : q.w = p.w) (he : q.e = p.e)
    (hc : M.committed = L.committed) (ht : M.taken = L.taken) : Holds q M line := by
  obtain ⟨h1,h2,h3,h4,h5,h6,h7,h8⟩ := h
  rw [← hc,← ht] at *
  exact ⟨h1,hr.trans h2,hw.trans h3,he.trans h4,h5,h6,h7,by rwa [hb]⟩

/-- What a step of `consoleintr` leaves unchanged. -/
structure Typed (p q : Input) (c : ℕ) (l : Point) (chars : List ℕ) : Prop where
  history : q.history = p.history++[.typed c]
  returned : q.returned = p.returned
  r : q.r = p.r
  holds : assertions.holds l q
  w : l = .commit chars ∨ q.w = p.w
  next : l = .consoleintr chars ∨ l = .killLine chars ∨ l = .commit chars

theorem store_ok {p : Input} (h : p.Good) {c c' : ℕ} (chars : List ℕ)
    (hroom : p.line.used < INPUT_BUF) (hstep : p.line.step (.typed c) = p.line.add c') :
    ∃ q l, (if c' = newline ∨ c' = ctrlD ∨ (p.store c').e = (p.r+INPUT_BUF)%2^32 then
        (.goto {(p.record (.typed c)).store c' with w := (p.store c').e} (.commit chars) :
          Act Input Point Unit ℤ)
      else .goto ((p.record (.typed c)).store c') (.consoleintr chars)) = .goto q l ∧
      Typed p q c l chars := by
  have hfull : (p.store c').e = (p.r+INPUT_BUF)%2^32 ↔ p.line.used+1 = INPUT_BUF := by
    have htaken := h.taken
    simp only [Input.store,h.e,h.r]
    simp only [Line.used,INPUT_BUF] at hroom ⊢
    omega
  by_cases hend : c' = newline ∨ c' = ctrlD ∨ p.line.used+1 = INPUT_BUF
  · refine ⟨_,_,if_pos (by rwa [hfull]),rfl,rfl,rfl,?_,.inl rfl,.inr (.inr rfl)⟩
    change Holds _ _ _
    rw [@Input.line_concat p _ (.typed c) rfl,hstep,Line.add,if_pos hend]
    exact (h.commit c' hroom).congr rfl rfl rfl rfl rfl rfl
  · refine ⟨_,_,if_neg (by rwa [hfull]),rfl,rfl,rfl,?_,.inr rfl,.inl rfl⟩
    change Holds _ _ _
    rw [@Input.line_concat p _ (.typed c) rfl,hstep,Line.add,if_neg hend]
    have hlt : p.line.used+1 < INPUT_BUF := lt_of_le_of_ne hroom fun he => hend (.inr (.inr he))
    exact (h.store (fun he => hend (.inl he)) hlt).congr rfl rfl rfl rfl rfl rfl

theorem input_ok {p : Input} (h : p.Good) (c : ℕ) (chars : List ℕ) :
    ∃ q l, input (p.record (.typed c)) c chars = .goto q l ∧ Typed p q c l chars := by
  have hline : ∀ {q : Input}, q.history = p.history++[.typed c] → q.line = p.line.step (.typed c) :=
    fun hq => Input.line_concat hq
  unfold input
  by_cases hP : c = ctrlP
  · refine ⟨_,_,if_pos hP,rfl,rfl,rfl,?_,.inr rfl,.inl rfl⟩
    change Holds _ _ _
    rw [hline rfl,Line.step,if_pos hP]
    exact h.congr rfl rfl rfl rfl rfl rfl
  rw [if_neg hP]
  by_cases hU : c = ctrlU
  · refine ⟨_,_,if_pos hU,rfl,rfl,rfl,?_,.inr rfl,.inr (.inl rfl)⟩
    change (Input.line _).line = [] ∧ ∃ line, Holds _ _ line
    rw [hline rfl,Line.step,if_neg hP,if_pos hU]
    exact ⟨rfl,_,h.congr rfl rfl rfl rfl rfl rfl⟩
  rw [if_neg hU]
  by_cases hH : c = ctrlH ∨ c = delete
  · rw [if_pos hH]
    have hstep : p.line.step (.typed c) = {p.line with line := p.line.line.dropLast} := by
      rw [Line.step,if_neg hP,if_neg hU,if_pos hH]
    by_cases he : p.e = p.w
    · refine ⟨_,_,rfl,?_⟩
      rw [if_neg (show ¬ (p.record _).e ≠ (p.record _).w from not_not_intro he)]
      refine ⟨rfl,rfl,rfl,?_,.inr rfl,.inl rfl⟩
      change Holds _ _ _
      have hnil : p.line.line = [] := h.e_eq_w_iff.mp he
      rw [hline rfl,hstep,hnil,dropLast_nil]
      have h' : Holds p p.line [] := hnil ▸ h
      exact h'.congr rfl rfl rfl rfl rfl rfl
    · refine ⟨_,_,rfl,?_⟩
      rw [if_pos (show (p.record _).e ≠ (p.record _).w from he)]
      refine ⟨rfl,rfl,rfl,?_,.inr rfl,.inl rfl⟩
      change Holds _ _ _
      rw [hline rfl,hstep]
      have h' := h.erase fun hn => he (h.e_eq_w_iff.mpr hn)
      exact h'.congr rfl rfl rfl rfl rfl rfl
  rw [if_neg hH]
  have hused : (p.e+2^32-p.r)%2^32 = p.line.used := h.used_eq
  by_cases hroom : c ≠ 0 ∧ p.line.used < INPUT_BUF
  · have hcond : c ≠ 0 ∧ ((p.record (.typed c)).e+2^32-(p.record (.typed c)).r)%2^32 < INPUT_BUF := by
      rw [show (p.record (.typed c)).e = p.e from rfl,show (p.record (.typed c)).r = p.r from rfl,hused]
      exact hroom
    rw [if_pos hcond]
    refine store_ok h chars hroom.2 ?_
    rw [Line.step,if_neg hP,if_neg hU,if_neg hH,if_pos hroom]
  · have hcond : ¬ (c ≠ 0 ∧
        ((p.record (.typed c)).e+2^32-(p.record (.typed c)).r)%2^32 < INPUT_BUF) := by
      rw [show (p.record (.typed c)).e = p.e from rfl,show (p.record (.typed c)).r = p.r from rfl,hused]
      exact hroom
    refine ⟨_,_,if_neg hcond,rfl,rfl,rfl,?_,.inr rfl,.inl rfl⟩
    change Holds _ _ _
    rw [hline rfl,Line.step,if_neg hP,if_neg hU,if_neg hH,if_neg hroom]
    exact h.congr rfl rfl rfl rfl rfl rfl

/-- What taking a character does: a `^D` is left for the next read, or taken and dropped;
any other character goes to `dst`. -/
inductive Took (p : Input) (target m : ℤ) (dst places : List ℕ) : Input → Point → Prop
  | keep : m < target → Took p target m dst places p (.done target m dst places)
  | drop {q} : q.history = p.history++[.take] → q.returned = p.returned →
      p.line.committed[p.line.taken]? = some ctrlD →
      Took p target m dst places q (.done target m dst places)
  | put {q c l} : q.history = p.history++[.take] → q.returned = p.returned →
      p.line.committed[p.line.taken]? = some c → c ≠ ctrlD →
      l = .done target (m-1) (dst++[c]) (places++[p.line.taken]) ∨
        l = .consoleread target (m-1) (dst++[c]) (places++[p.line.taken]) →
      Took p target m dst places q l

theorem takeChar_ok {p : Input} {target m : ℤ} {dst places : List ℕ} (h : p.Good)
    (hr : Reads p.line target m dst places) (hne : p.r ≠ p.w) :
    ∃ q l, takeChar p target m dst places = .goto q l ∧ assertions.holds l q ∧
      Took p target m dst places q l := by
  obtain ⟨hlt,hnext⟩ := h.next hne
  have hgood : ({p with r := (p.r+1)%2^32}.record .take).Good := by
    change Holds _ _ _
    rw [@Input.line_concat p _ .take rfl]
    exact (h.take hlt).congr rfl rfl rfl rfl rfl rfl
  have hline : ({p with r := (p.r+1)%2^32}.record .take).line = p.line.step .take :=
    Input.line_concat rfl
  unfold takeChar
  dsimp only
  by_cases hc : p.buf (p.r%INPUT_BUF) = ctrlD
  · rw [if_pos hc]
    by_cases hm : m < target
    · have hback : ((p.r+1)%2^32+2^32-1)%2^32 = p.r := by
        have := h.r
        omega
      rw [if_pos hm,hback]
      exact ⟨_,_,rfl,⟨h,hr⟩,.keep hm⟩
    · rw [if_neg hm]
      refine ⟨_,_,rfl,⟨hgood,?_⟩,.drop rfl rfl (hc ▸ hnext)⟩
      rw [hline]
      exact ⟨hr.1.mono (p.line.le_step _),hr.2⟩
  · rw [if_neg hc]
    have hreads : Reads (p.line.step .take) target (m-1) (dst++[p.buf (p.r%INPUT_BUF)])
        (places++[p.line.taken]) := by
      refine ⟨hr.1.take hnext hc,?_⟩
      rw [hr.2,length_append,length_singleton]
      push_cast
      ring
    by_cases hn : p.buf (p.r%INPUT_BUF) = newline
    · rw [if_pos hn]
      exact ⟨_,_,rfl,⟨hgood,by rw [hline]; exact hreads⟩,.put rfl rfl hnext hc (.inl rfl)⟩
    · rw [if_neg hn]
      exact ⟨_,_,rfl,⟨hgood,by rw [hline]; exact hreads⟩,.put rfl rfl hnext hc (.inr rfl)⟩

inductive Does (p : Input) (k : Bool) : Point → Act Input Point Unit ℤ → Prop
  | killed {target m dst places} : k = true → 0 < m → p.r = p.w →
      Does p k (.consoleread target m dst places) (.leave p (-1))
  | sleep {target m dst places} : p.r = p.w →
      Does p k (.consoleread target m dst places) (.sleep () (.consoleread target m dst places))
  | take {target m dst places q l} : p.r ≠ p.w → assertions.holds l q →
      Took p target m dst places q l → Does p k (.consoleread target m dst places) (.goto q l)
  | stop {target m dst places} :
      Does p k (.consoleread target m dst places) (.goto p (.done target m dst places))
  | done {target m dst places} : Does p k (.done target m dst places)
      (.leave {p with returned := p.returned++places} (target-m))
  | idle : Does p k (.consoleintr []) (.leave p 0)
  | typed {c chars q l} : Typed p q c l chars → Does p k (.consoleintr (c::chars)) (.goto q l)
  | erase {chars x} : assertions.holds (.killLine chars) {p with e := x} →
      Does p k (.killLine chars) (.goto {p with e := x} (.killLine chars))
  | erased {chars} : p.Good → Does p k (.killLine chars) (.goto p (.consoleintr chars))
  | commit {chars} : Does p k (.commit chars) (.wakeup () (.consoleintr chars))

theorem code_does {p : Input} {l : Point} (h : assertions.holds l p) (k : Bool) :
    Does p k l (code p k l) := by
  cases l with
  | consoleread =>
    simp only [code]
    split_ifs with hm hrw hk
    · exact .killed hk hm hrw
    · exact .sleep hrw
    · obtain ⟨q,l,htake,hq,htook⟩ := takeChar_ok h.1 h.2 hrw
      rw [htake]
      exact .take hrw hq htook
    · exact .stop
  | done => exact .done
  | consoleintr chars =>
    cases chars with
    | nil => exact .idle
    | cons c chars =>
      obtain ⟨q,l,hin,ht⟩ := input_ok h c chars
      simp only [code]
      rw [hin]
      exact .typed ht
  | killLine =>
    obtain ⟨hnil,line,hline⟩ := h
    simp only [code]
    split_ifs with he
    · have hq := hline.erase fun hn => he.1 (hline.e_eq_w_iff.mpr hn)
      have hl : Input.line {p with e := (p.e+2^32-1)%2^32} = p.line := Input.line_congr rfl
      refine .erase ⟨?_,line.dropLast,?_⟩
      · rw [hl]
        exact hnil
      · rw [hl]
        exact hq
    · have hl : line = [] := by
        by_contra hne
        exact he ⟨fun hew => hne (hline.e_eq_w_iff.mp hew),hline.last_ne hne⟩
      refine .erased ?_
      change Holds _ _ _
      rw [hnil]
      exact hl ▸ hline
  | commit => exact .commit

theorem Took.le {p q : Input} {target m : ℤ} {dst places : List ℕ} {l : Point}
    (h : Took p target m dst places q l) : p.line.le q.line := by
  cases h with
  | keep => exact p.line.le_refl
  | drop hh | put hh =>
    rw [Input.line_concat hh]
    exact p.line.le_step _

theorem Typed.le {p q : Input} {c : ℕ} {l : Point} {chars : List ℕ} (h : Typed p q c l chars) :
    p.line.le q.line := by
  rw [Input.line_concat h.history]
  exact p.line.le_step _

theorem system_spec : Spec (system n) shared assertions fun _ _ _ => True where
  keeps := keeps_shared _
  exclusive _ _ l _ _ m _ := apart_shared l m
  enter s t l he _ := by
    cases l with
    | consoleread target m dst places =>
      cases dst <;> cases places <;> simp only [system,enabled,Bool.false_eq_true] at he
      refine ⟨⟨rfl,List.Pairwise.nil,by simp,by simp⟩,?_⟩
      simpa using he
    | consoleintr => trivial
    | _ => cases he
  acquire p l hf hw := by
    cases l with
    | consoleread => exact ⟨hf,hw⟩
    | consoleintr => exact hf
    | _ => exact hw.elim
  goto p k l q l' h _ hc := by
    have hd := code_does h k
    rw [show code p k l = _ from hc] at hd
    cases hd with
    | take _ hq htook => exact ⟨hq,frame_of_le htook.le⟩
    | stop => exact ⟨h,.refl _ _ _ _⟩
    | typed ht => exact ⟨ht.holds,frame_of_le ht.le⟩
    | erase hq => exact ⟨hq,frame_of_le p.line.le_refl⟩
    | erased hg => exact ⟨hg,.refl _ _ _ _⟩
  wakeup p k l c l' h hc := by
    have hd := code_does h k
    rw [show code p k l = _ from hc] at hd
    cases hd
    exact h
  sleep p k l c l' h hc := by
    have hd := code_does h k
    rw [show code p k l = _ from hc] at hd
    cases hd
    exact h
  woken p c l h := by
    cases l with
    | consoleread => exact h
    | _ => exact h.elim
  leave p k l q r h hc := by
    have hd := code_does h k
    rw [show code p k l = _ from hc] at hd
    cases hd with
    | killed => exact ⟨h.1,.refl _ _ _ _,fun _ _ h => h⟩
    | done =>
      exact ⟨h.1.congr rfl rfl rfl rfl rfl rfl,frame_of_le p.line.le_refl,fun _ _ h => h⟩
    | idle => exact ⟨h,.refl _ _ _ _,fun _ _ h => h⟩
  env _ e := nomatch e

theorem init_hold : assertions.Hold shared (init n) where
  held t := by simp [init,Status.holding]
  apart _ _ l m _ _ _ := apart_shared l m
  claimed _ h := h.elim
  free _ := ⟨by simp [init,Input.line,Line.after],by simp [init,Input.line,Line.after],
    by simp [init,Input.line,Line.after],by simp [init,Input.line,Line.after],
    by simp [init,Input.line,Line.after],by simp [init,Input.line,Line.after],
    by simp [init,Input.line,Line.after],by simp [init,Input.line,Line.after]⟩
  thread t := trivial

/-! ### Sleeping readers -/

def Waits (_ : Unit) (p : Input) : Prop := p.r = p.w

def Owes : Unit → Point → Input → Prop
  | _,.commit _,_ => True
  | _,_,_ => False

def Kept (p : Input) (killed : Bool) : Point → Prop
  | .consoleread _ m _ places => killed = true → 0 < m → p.r = p.w → places = []
  | _ => True

instance (p : Input) (killed : Bool) : (l : Point) → Decidable (Kept p killed l)
  | .consoleread _ m _ places => inferInstanceAs (Decidable (_ = true → 0 < m → p.r = p.w → places = []))
  | .done _ _ _ _ | .consoleintr _ | .killLine _ | .commit _ => isTrue trivial

theorem system_discipline : Discipline Waits Owes (system n) assertions Kept where
  goto p k l q l' c h _ hc hw := by
    have hd := code_does h k
    rw [show code p k l = _ from hc] at hd
    cases hd with
    | take hrw => exact absurd hw (by simp [Waits,Owes,hrw])
    | stop | erase | erased => exact .inl (hw.resolve_right id)
    | typed ht =>
      have hw := hw.resolve_right id
      rcases ht.w with hl | hqw
      · exact .inr (hl ▸ trivial)
      · exact .inl (ht.r.trans (hw.trans hqw.symm))
  wakeup p k l c' l' c h hc hne := absurd (Subsingleton.elim c c') hne
  sleep p k l c' l' c h hc _ := by
    have hd := code_does h k
    rw [show code p k l = _ from hc] at hd
    cases hd with
    | sleep hrw => exact hrw
  leave p k l q r c h _ hc hw := by
    have hd := code_does h k
    rw [show code p k l = _ from hc] at hd
    cases hd with
    | killed | done | idle => exact hw.resolve_right id
  env _ e := nomatch e

/-! ### Each character once -/

def Point.places : Point → List ℕ
  | .consoleread _ _ _ places | .done _ _ _ places => places
  | _ => []

def hand (st : Status Point Unit) : List ℕ := (st.point.map Point.places).getD []

/-- A character that some call has to return: it is taken and no `^D`. -/
def due (L : Line) (k : ℕ) : ℕ := if k < L.taken ∧ L.committed[k]? ≠ some ctrlD then 1 else 0

def Once (s : ConsoleState n) : Prop :=
  ∀ k, s.data.returned.count k+∑ t, (hand (s.thread t)).count k = due s.data.line k

theorem due_typed {L : Line} (hL : L.taken ≤ L.committed.length) (c k : ℕ) :
    due (L.step (.typed c)) k = due L k := by
  have htaken : (L.step (.typed c)).taken = L.taken := by
    unfold Line.step Line.add
    dsimp only
    split_ifs <;> rfl
  unfold due
  rw [htaken]
  by_cases hk : k < L.taken
  · obtain ⟨t,ht⟩ := L.committed_step (.typed c)
    rw [← ht,getElem?_append_left (hk.trans_le hL)]
  · simp [hk]

theorem due_take (L : Line) (k : ℕ) : due (L.step .take) k =
    due L k+if k = L.taken ∧ L.committed[k]? ≠ some ctrlD then 1 else 0 := by
  unfold due Line.step
  by_cases hk : k = L.taken
  · subst hk
    simp
  · have : k < L.taken+1 ↔ k < L.taken := by omega
    simp [this,hk]

theorem Once.change {s s' : ConsoleState n} (h : Once s) (t : Fin n)
    (hothers : ∀ u, u ≠ t → hand (s'.thread u) = hand (s.thread u))
    (hdue : ∀ k, s'.data.returned.count k+(hand (s'.thread t)).count k+due s.data.line k =
      s.data.returned.count k+(hand (s.thread t)).count k+due s'.data.line k) : Once s' := by
  intro k
  have hsum := Tally.sum_change (f := fun u => (hand (s.thread u)).count k)
    (g := fun u => (hand (s'.thread u)).count k) t fun u hu => by simp only [hothers u hu]
  have hk := h k
  have hd := hdue k
  omega

theorem Once.same {s s' : ConsoleState n} (h : Once s)
    (hhand : ∀ u, hand (s'.thread u) = hand (s.thread u)) (hret : s'.data.returned = s.data.returned)
    (hdue : ∀ k, due s'.data.line k = due s.data.line k) : Once s' := by
  intro k
  rw [hdue,← h k,hret]
  simp only [hhand]

theorem hand_update (f : Fin n → Status Point Unit) {t : Fin n} {st : Status Point Unit}
    (h : hand st = hand (f t)) (u : Fin n) : hand (update f t st u) = hand (f u) := by
  by_cases hu : u = t
  · subst hu
    simpa using h
  · simp [hu]

theorem Once.step {s s' : ConsoleState n} {a : Label (Fin n) Point Empty} (hA : assertions.Hold shared s)
    (h : Once s) (hok : Meets Kept s a) (hs : Moves (system n) s a s') : Once s' := by
  cases hs with
  | @enter t l ht he =>
    refine h.same (hand_update _ ?_) rfl fun _ => rfl
    rw [ht]
    cases l with
    | consoleread target m dst places =>
      cases dst <;> cases places <;> first | rfl | cases he
    | consoleintr => rfl
    | _ => cases he
  | acquire ht | park ht | settle ht =>
    refine h.same (hand_update _ ?_) rfl fun _ => rfl
    rw [ht]
    rfl
  | @goto t l q l' ht hc =>
    have ha : assertions.holds l s.data := by simpa [ht] using hA.thread t
    have hd := code_does ha (s.killed t)
    rw [show code s.data (s.killed t) l = _ from hc] at hd
    have hothers : ∀ u, u ≠ t → hand (update s.thread t (.inside l') u) = hand (s.thread u) :=
      fun u hu => by simp [hu]
    cases hd with
    | take _ _ htook =>
      refine h.change t hothers fun k => ?_
      simp only [update_self,ht]
      cases htook with
      | keep => rfl
      | drop hh hret hnext =>
        rw [hret,Input.line_concat hh,due_take]
        by_cases hk : k = s.data.line.taken
        · subst hk
          simp [hnext,hand,Status.point,Point.places]
        · simp [hk,hand,Status.point,Point.places]
      | put hh hret hnext hne hl =>
        rw [hret,Input.line_concat hh,due_take]
        have hput : ∀ places, (places++[s.data.line.taken]).count k =
            places.count k+if k = s.data.line.taken then 1 else 0 := by
          intro places
          rw [count_append]
          by_cases hk : k = s.data.line.taken
          · simp [hk]
          · simp [hk,Ne.symm hk]
        have hcond : (k = s.data.line.taken ∧ s.data.line.committed[k]? ≠ some ctrlD) ↔
            k = s.data.line.taken := by
          refine ⟨And.left,fun hk => ⟨hk,?_⟩⟩
          rw [hk,hnext]
          simpa using hne
        rcases hl with rfl | rfl <;>
          simp only [hand,Status.point,Point.places,Option.map_some,Option.getD_some,hput,hcond] <;>
          omega
    | stop | erased => exact h.same (hand_update _ (by rw [ht]; rfl)) rfl fun _ => rfl
    | typed htyped =>
      refine h.same (hand_update _ ?_) htyped.returned fun k => ?_
      · rw [ht]
        rcases htyped.next with rfl | rfl | rfl <;> rfl
      · rw [Input.line_concat htyped.history]
        exact due_typed ha.taken _ k
    | erase => exact h.same (hand_update _ (by rw [ht])) rfl fun _ => rfl
  | @wakeup t l c l' ht hc | @sleep t l c l' ht hc =>
    have ha : assertions.holds l s.data := by simpa [ht] using hA.thread t
    have hd := code_does ha (s.killed t)
    rw [show code s.data (s.killed t) l = _ from hc] at hd
    cases hd
    exact h.same (hand_update _ (by rw [ht]; rfl)) rfl fun _ => rfl
  | @leave t l q r ht hc =>
    have ha : assertions.holds l s.data := by simpa [ht] using hA.thread t
    have hg : Kept s.data (s.killed t) l := hok l (by simp [ht,Status.running])
    have hd := code_does ha (s.killed t)
    rw [show code s.data (s.killed t) l = _ from hc] at hd
    cases hd with
    | killed hk hm hrw =>
      refine h.same (hand_update _ ?_) rfl fun _ => rfl
      have hnil := hg hk hm hrw
      rw [ht]
      simp [hand,Status.point,Point.places,hnil]
    | @done target m dst places =>
      refine h.change t (fun u hu => by simp [hu]) fun k => ?_
      have hline : Input.line {s.data with returned := s.data.returned++places} = s.data.line :=
        Input.line_congr rfl
      simp only [update_self,ht,hline]
      simp only [hand,Status.point,Point.places,Option.map_some,Option.getD_some,Option.map_none,
        Option.getD_none,count_append,count_nil,add_zero]
    | idle => exact h.same (hand_update _ (by rw [ht]; rfl)) rfl fun _ => rfl
  | @scan t c l ht _ =>
    refine h.same (fun u => ?_) rfl fun _ => rfl
    by_cases hu : u = t
    · subst hu
      simp [hand,ht,Status.point]
    · simp [hand,hu]
  | kill =>
    refine h.same (hand_update _ ?_) rfl fun _ => rfl
    simp [hand]
  | @env e _ _ => cases e

theorem holds_of_hold {s : ConsoleState n} (h : assertions.Hold shared s) :
    ∃ line, Holds s.data s.data.line line := by
  cases hl : s.lock with
  | none => exact ⟨_,h.free hl⟩
  | some t =>
    have hh := (h.held t).mp hl
    have ht := h.thread t
    have hgood : ∀ l, assertions.holds l s.data → ∃ line, Holds s.data s.data.line line := by
      intro l hp
      cases l with
      | consoleread | done => exact ⟨_,hp.1⟩
      | killLine => exact hp.2
      | _ => exact ⟨_,hp⟩
    cases hst : s.thread t with
    | inside l | wake c l =>
      rw [hst] at ht
      exact hgood l ht
    | sleep =>
      rw [hst] at ht
      exact ⟨_,ht.1⟩
    | _ => simp [hst,Status.holding] at hh

/-- The characters a call has in `dst`, with their places. -/
def Point.text : Point → Option (List ℕ×List ℕ)
  | .consoleread _ _ dst places | .done _ _ dst places => some (dst,places)
  | _ => none

theorem text_of_hold {s : ConsoleState n} (h : assertions.Hold shared s) {t : Fin n} {l : Point}
    {dst places : List ℕ} (hl : (s.thread t).point = some l) (ht : l.text = some (dst,places)) :
    Text s.data.line dst places := by
  have hloc := h.thread t
  cases l with
  | consoleread | done =>
    cases ht
    cases hst : s.thread t <;> rw [hst] at hl hloc <;> cases hl <;>
      first | exact hloc.2.1 | exact hloc.1 | exact hloc.2.elim | exact hloc.elim
  | _ => cases ht

/-- In every run in which a killed reader that finds nothing to read holds no characters:
the indices stay in order and the ring is committed when it is full; the text of each
call is committed text in its order, without `^D`; every taken character but a `^D`
is in the hands of one call or has been returned once; a call returns what it holds;
committed text stays; and nobody sleeps while there is something to read. -/
theorem line_discipline {s : ConsoleState n}
    (h : Reach (Monitor.step (system n)) (Meets Kept) (init n) s) :
    ((s.data.w+2^32-s.data.r)%2^32 ≤ (s.data.e+2^32-s.data.r)%2^32 ∧
      (s.data.e+2^32-s.data.r)%2^32 ≤ INPUT_BUF ∧
      ((s.data.e+2^32-s.data.r)%2^32 = INPUT_BUF → s.data.w = s.data.e)) ∧
    (∀ t l dst places, (s.thread t).point = some l → l.text = some (dst,places) →
      Text s.data.line dst places) ∧
    (∀ k, s.data.returned.count k+∑ t, (hand (s.thread t)).count k = due s.data.line k) ∧
    (∀ t l dst places q r, s.thread t = .inside l → l.text = some (dst,places) →
      Kept s.data (s.killed t) l → code s.data (s.killed t) l = .leave q r →
      r = dst.length ∧ q.returned = s.data.returned++places ∨ r = -1 ∧ dst = []) ∧
    (∀ a s', Monitor.step (system n) s a = some s' → s.data.line.committed <+: s'.data.line.committed) ∧
    (s.lock = none → ∀ t c l, s.thread t = .asleep c l → s.data.r = s.data.w) := by
  have hw0 : Awake Waits Owes (init n) :=
    ⟨fun t => by simp [init,Status.parked],fun t c hc => by simp [init,Status.chan] at hc⟩
  have h0 : Once (init n) := fun k => by simp [init,hand,Status.point,due,Input.line,Line.after]
  have hI : assertions.Hold shared s ∧ Once s :=
    h.invariant (I := fun s => assertions.Hold shared s ∧ Once s) ⟨init_hold,h0⟩ fun _ _ _ hI hok hs =>
      ⟨system_spec.step hI.1 (meets_true _ _) (step_moves hs),hI.2.step hI.1 hok (step_moves hs)⟩
  obtain ⟨line,hline⟩ := holds_of_hold hI.1
  refine ⟨⟨?_,?_,?_⟩,fun t l dst places => text_of_hold hI.1,hI.2,?_,?_,?_⟩
  · rw [hline.used_eq]
    have htaken := hline.taken
    have hroom := hline.room
    rw [hline.w,hline.r]
    simp only [INPUT_BUF] at hroom
    omega
  · rw [hline.used_eq]
    exact hline.room
  · rw [hline.used_eq]
    exact fun hf => (hline.e_eq_w_iff.mpr (hline.full hf)).symm
  · intro t l dst places q r ht hl hkept hc
    have ha : assertions.holds l s.data := by simpa [ht] using hI.1.thread t
    have hd := code_does ha (s.killed t)
    rw [hc] at hd
    cases hd with
    | killed hk hm hrw =>
      cases hl
      obtain rfl := hkept hk hm hrw
      exact .inr ⟨rfl,by simpa using ha.2.1.chars.symm⟩
    | done =>
      cases hl
      refine .inl ⟨?_,rfl⟩
      rw [ha.2.2]
      ring
    | idle => cases hl
  · intro a s' hs
    have hle : ∀ {l q l'} {k : Bool}, assertions.holds l s.data → code s.data k l = .goto q l' →
        s.data.line.committed <+: q.line.committed := by
      intro l q l' k ha hc
      have hd := code_does ha k
      rw [hc] at hd
      cases hd with
      | take _ _ htook => exact htook.le.1
      | typed ht => exact ht.le.1
      | stop | erase | erased => exact prefix_refl _
    cases step_moves hs with
    | @goto t l q l' ht hc => exact hle (by simpa [ht] using hI.1.thread t) hc
    | @leave t l q r ht hc =>
      have ha : assertions.holds l s.data := by simpa [ht] using hI.1.thread t
      have hd := code_does ha (s.killed t)
      rw [show code s.data (s.killed t) l = _ from hc] at hd
      cases hd <;> exact prefix_refl _
    | @env e _ _ => cases e
    | _ => exact prefix_refl _
  · intro hl t c l ht
    exact system_discipline.waits_of_asleep (system_spec.mono fun _ _ _ _ => trivial) h init_hold hw0 hl ht

/-- A line is typed and read. -/
theorem typedLine_once : ∃ s : ConsoleState 2, Reach (Monitor.step (system 2)) (Meets Kept) (init 2) s ∧
    s.data.line.committed = [104,105,10] ∧ s.data.returned = [0,1,2] ∧
    ∀ k, s.data.returned.count k+∑ t, (hand (s.thread t)).count k = due s.data.line k := by
  have hrun : (run (guarded (Monitor.step (system 2)) (Meets Kept)) (init 2) (flatten
      [[.enter 1 (.consoleintr [104,105,10])],replicate 7 (.run 1),
        [.enter 0 (.consoleread 10 10 [] [])],replicate 5 (.run 0)])).any
      (fun s => s.data.line.committed = [104,105,10] ∧ s.data.returned = [0,1,2]) = true := by
    decide +kernel
  obtain ⟨s,hs,hp⟩ := (Option.any_eq_true _ _).mp hrun
  have hr := Reach.refl.of_run hs
  have hp := of_decide_eq_true hp
  exact ⟨s,hr,hp.1,hp.2,(line_discipline hr).2.2.1⟩

/-- A reader takes a full ring of 128 characters and is killed while it waits for more: no
call is left and none has returned them. -/
theorem killedReader_loses : ∃ s : ConsoleState 2,
    Reach (Monitor.step (system 2)) (fun _ _ => True) (init 2) s ∧
    (∀ t, (s.thread t).point.isNone) ∧ s.data.line.committed = replicate 128 97 ∧
    s.data.line.taken = 128 ∧ s.data.returned = [] := by
  have hrun : (run (guarded (Monitor.step (system 2)) fun _ _ => True) (init 2) (flatten
      [[.enter 0 (.consoleread 200 200 [] [])],replicate 4 (.run 0),
        [.enter 1 (.consoleintr (replicate 128 97))],replicate 132 (.run 1),
        replicate 132 (.run 0),[.kill 0,.run 0,.run 0]])).any
      (fun s => (∀ t, (s.thread t).point.isNone) ∧ s.data.line.committed = replicate 128 97 ∧
        s.data.line.taken = 128 ∧ s.data.returned = []) = true := by decide +kernel
  obtain ⟨s,hs,hp⟩ := (Option.any_eq_true _ _).mp hrun
  exact ⟨s,Reach.refl.of_run hs,of_decide_eq_true hp⟩

end
end Xv6.Console
