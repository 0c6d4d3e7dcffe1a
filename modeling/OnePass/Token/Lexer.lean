import OnePass.Diagnostic
import OnePass.Token.Feed
import OnePass.Trace

namespace OnePass

/-- The buffer holds the bytes already consumed, kept latest first, the pending ones, and what
earlier reads left behind them. Past `stale` it holds zeros. -/
structure Lexer where
  capacity : Nat
  spent : List UInt8 := []
  pending : List UInt8 := []
  stale : List UInt8 := []
  ended : Bool := false
  line : Nat := 1
  feed : Feed
  trace : Array Event := #[]

namespace Lexer

def defaultCapacity : Nat := 64

def minCapacity : Nat := 2

def maxEmptyReads : Nat := 100

/-- Without a size there is the default capacity, and a size below the least is raised to it. -/
def capacityOf : Option Int → Nat
  | none => defaultCapacity
  | some n => max minCapacity n.toNat

def start (feed : Feed) (size : Option Int) : Lexer := { capacity := capacityOf size, feed }

def allotBuffer (size : Option Int) : Except Fault Unit := allot 1 (capacityOf size)

/-- What lexing yields: a result or a diagnostic, with the lexer as it was left. -/
abbrev Outcome (α : Type) := EStateM.Result Diagnostic Lexer α

def isBlank (b : UInt8) : Bool := b = 32 || (9 ≤ b && b ≤ 13)

def isDigit (b : UInt8) : Bool := 48 ≤ b && b ≤ 57

def isLetter (b : UInt8) : Bool := (97 ≤ b && b ≤ 122) || (65 ≤ b && b ≤ 90)

def isAlnum (b : UInt8) : Bool := isLetter b || isDigit b

def ascii (bs : List UInt8) : String := String.ofList (bs.map fun b => Char.ofNat b.toNat)

def room (s : Lexer) : Nat := s.capacity - s.pending.length

/-- Bounds the refills that are left. -/
def refills (s : Lexer) : Nat := (if s.ended then 0 else 1) + s.feed.reads

def consume (s : Lexer) (n : Nat) : Lexer :=
  { s with spent := (s.pending.take n).reverse ++ s.spent, pending := s.pending.drop n }

/-- Moves the pending bytes to the front of the buffer. -/
def slide (s : Lexer) : Lexer :=
  { s with
    spent := []
    stale := (s.spent.reverse ++ s.pending ++ s.stale).drop s.pending.length }

/-- Takes `count` bytes in behind the pending ones: those delivered, and past them what the buffer
already held. -/
def receive (s : Lexer) (count : Nat) (bytes : List UInt8) : Lexer :=
  let held := bytes ++ s.stale.drop bytes.length
  { s with
    pending := s.pending ++ (held ++ List.replicate count 0).take count
    stale := held.drop count }

/-- Reads until something comes, at most `tries` times. -/
def readMore : Nat → Lexer → Outcome Unit
  | 0, s => .error ⟨s.line, .noProgress⟩ s
  | tries + 1, s =>
    let got := (s.feed.read s.room).1
    let s := { s with feed := (s.feed.read s.room).2 }
    if got.count < 0 ∨ s.room < got.count then .error ⟨s.line, .invalidCount got.count⟩ s
    else
      let s := s.receive got.count.toNat got.bytes
      match got.ending with
      | .endOfInput => .ok () { s with ended := true }
      | .failure text => .error ⟨s.line, .readFailed text⟩ s
      | .more =>
        if 0 < got.count then
          .ok () { s with trace := s.trace.push (.refill s.pending.length s.line) }
        else readMore tries s

/-- Refills the buffer. A buffer full of pending bytes cannot take more. -/
def refill (s : Lexer) : Outcome Unit :=
  let s := s.slide
  if s.capacity ≤ s.pending.length then .error ⟨s.line, .tokenTooLong s.capacity⟩ s
  else readMore maxEmptyReads s

theorem refills_readMore {tries : Nat} {s t : Lexer} (hroom : 0 < s.room)
    (hended : s.ended = false) (h : readMore tries s = .ok () t) : t.refills < s.refills := by
  induction tries generalizing s with
  | zero => simp [readMore] at h
  | succ tries ih =>
    have hle := s.feed.reads_read_le s.room
    have hlt := s.feed.reads_read_lt hroom
    simp only [readMore] at h
    split at h
    · simp at h
    · split at h
      · simp only [EStateM.Result.ok.injEq, true_and] at h
        subst h
        simp only [receive, refills, hended] at *
        simp only [↓reduceIte, Bool.false_eq_true]
        omega
      · simp at h
      · rename_i hcount _ hmore
        have hlt := hlt hmore
        split at h
        · simp only [EStateM.Result.ok.injEq, true_and] at h
          subst h
          simp only [receive, refills, hended] at *
          omega
        · rename_i hzero
          have hz : (s.feed.read s.room).1.count.toNat = 0 := by omega
          refine Nat.lt_trans (ih ?_ ?_ h) ?_
          · rw [hz]
            simpa [receive, room] using hroom
          · exact hended
          · simp only [receive, refills, hended] at *
            omega

/-- Every refill that succeeds brings the end of the feed nearer. -/
theorem refills_refill {s t : Lexer} (hended : s.ended = false) (h : refill s = .ok () t) :
    t.refills < s.refills := by
  simp only [refill] at h
  split at h
  · simp at h
  · rename_i hroom
    exact refills_readMore (s := s.slide) (by simp only [room]; omega) hended h

/-- Consumes the longest run of bytes of a class that starts with the first pending byte. A run as
long as the buffer is refused even where the input ends after it. -/
def run (p : UInt8 → Bool) (s : Lexer) : Outcome (List UInt8) :=
  let n := 1 + (s.pending.tail.takeWhile p).length
  if s.pending.length ≤ n ∧ s.ended = false then
    match _h : refill s with
    | .error e t => .error e t
    | .ok () t => run p t
  else if s.capacity ≤ n then .error ⟨s.line, .tokenTooLong s.capacity⟩ s
  else .ok (s.pending.take n) (s.consume n)
termination_by s.refills
decreasing_by exact refills_refill (by simp_all) _h

def number (s : Lexer) : Outcome Token :=
  match run isDigit s with
  | .error e t => .error e t
  | .ok digits t =>
    if Problem.maxDigits < digits.length then .error ⟨s.line, .literalTooLong (ascii digits)⟩ t
    else
      let value := digits.foldl (fun n b => n * 10 + (b.toNat - 48 : Int)) 0
      .ok { type := .integer, value, line := s.line } t

def word (s : Lexer) : Outcome Token :=
  match run isAlnum s with
  | .error e t => .error e t
  | .ok bytes t =>
    match TokenType.keyword? (ascii bytes) with
    | some type => .ok { type, line := s.line } t
    | none => .ok { type := .identifier, name := ascii bytes, line := s.line } t

def skipBlanks (s : Lexer) : Lexer :=
  let blanks := s.pending.takeWhile isBlank
  { s.consume blanks.length with line := s.line + blanks.count 10 }

def token (b : UInt8) (s : Lexer) : Outcome Token :=
  if isDigit b then number s
  else if isLetter b then word s
  else match TokenType.mark? b with
    | some type => .ok { type, line := s.line } (s.consume 1)
    | none => .error ⟨s.line, .unexpectedByte b⟩ s

/-- The next token; at the end of the input, and ever after, one of type `eof`. -/
def next (s : Lexer) : Outcome Token :=
  match s.skipBlanks.pending with
  | b :: _ => token b s.skipBlanks
  | [] =>
    if _hended : s.skipBlanks.ended = true then
      .ok { type := .eof, line := s.skipBlanks.line } s.skipBlanks
    else
      match _h : refill s.skipBlanks with
      | .error e t => .error e t
      | .ok () t => next t
termination_by s.refills
decreasing_by exact refills_refill (s := s.skipBlanks) (by simpa using _hended) _h

/-- Progress: fewer refills are left, or as many and fewer pending bytes. -/
def Ahead (t s : Lexer) : Prop :=
  t.refills < s.refills ∨ t.refills = s.refills ∧ t.pending.length < s.pending.length

theorem ahead_consume {s : Lexer} {n : Nat} (hn : 0 < n) (hs : 0 < s.pending.length) :
    (s.consume n).Ahead s :=
  .inr ⟨rfl, by simp only [consume, List.length_drop]; omega⟩

theorem refills_run_le {p : UInt8 → Bool} {s t : Lexer} {bs : List UInt8}
    (h : run p s = .ok bs t) : t.refills ≤ s.refills := by
  fun_induction run p s with
  | case1 => simp at h
  | case2 s n hn u hu ih => exact Nat.le_trans (ih h) (Nat.le_of_lt (refills_refill hn.2 hu))
  | case3 => simp at h
  | case4 s n =>
    simp only [EStateM.Result.ok.injEq] at h
    exact h.2 ▸ Nat.le_refl _

theorem ahead_run {p : UInt8 → Bool} {s t : Lexer} {bs : List UInt8} (hs : 0 < s.pending.length)
    (h : run p s = .ok bs t) : t.Ahead s := by
  rw [run] at h
  split at h
  · rename_i hn
    split at h
    · simp at h
    · rename_i u hu
      exact .inl (Nat.lt_of_le_of_lt (refills_run_le h) (refills_refill hn.2 hu))
  · split at h
    · simp at h
    · simp only [EStateM.Result.ok.injEq] at h
      exact h.2 ▸ ahead_consume (by omega) hs

theorem ahead_token {b : UInt8} {s t : Lexer} {tok : Token} (hs : 0 < s.pending.length)
    (h : token b s = .ok tok t) : t.Ahead s := by
  unfold token number word at h
  repeat' split at h
  all_goals first
    | contradiction
    | (simp only [EStateM.Result.ok.injEq] at h
       first
         | exact h.2 ▸ ahead_consume Nat.one_pos hs
         | exact h.2 ▸ ahead_run hs (by assumption))

/-- A token other than `eof` leaves the lexer ahead of where it was. -/
theorem ahead_next {s t : Lexer} {tok : Token} (h : next s = .ok tok t) (hne : tok.type ≠ .eof) :
    t.Ahead s := by
  fun_induction next s with
  | case1 s b rest hp =>
    have hskip : s.skipBlanks.pending.length ≤ s.pending.length := by
      simp only [skipBlanks, consume, List.length_drop]
      omega
    have := ahead_token (by simp [hp]) h
    simp only [Ahead] at this ⊢
    have hr : s.skipBlanks.refills = s.refills := rfl
    omega
  | case2 =>
    simp only [EStateM.Result.ok.injEq] at h
    exact absurd (h.1 ▸ rfl) hne
  | case3 => simp at h
  | case4 s _ hended u hu ih =>
    have hlt := refills_refill (s := s.skipBlanks) (by simpa using hended) hu
    have hr : s.skipBlanks.refills = s.refills := rfl
    have := ih h
    simp only [Ahead] at this ⊢
    omega

/-- Reads to the end of the input, or to the first error: the tokens read, and the error. -/
def tokens (s : Lexer) : List Token × Outcome Unit :=
  match _h : next s with
  | .error e t => ([], .error e t)
  | .ok tok t =>
    if _hne : tok.type = .eof then ([], .ok () t)
    else
      let rest := tokens t
      (tok :: rest.1, rest.2)
termination_by (s.refills, s.pending.length)
decreasing_by
  rcases ahead_next _h _hne with h | ⟨h, h'⟩
  · exact .left _ _ h
  · exact h ▸ .right _ h'

end Lexer

structure Lexed where
  tokens : List Token
  error : Option Diagnostic
  trace : Array Event

def tokenize (feed : Feed) (size : Option Int) : Lexed :=
  match (Lexer.start feed size).tokens with
  | (tokens, .ok () s) => ⟨tokens, none, s.trace⟩
  | (tokens, .error e s) => ⟨tokens, some e, s.trace⟩

end OnePass
