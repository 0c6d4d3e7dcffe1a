import Mathlib
import OnePass.Proofs.Refill

namespace OnePass

namespace Lexer

/-- What a lexer does to its buffer: it moves the pending bytes to the front, reads into a free
space of `room` bytes, or takes bytes out. -/
inductive Act where
  | slide
  | read (room : Nat) (got : Delivery)
  | take (bytes : List UInt8)

/-- An act, and the lexer after it. -/
structure Moment where
  act : Act
  lexer : Lexer

def historyMore : Nat → Lexer → List Moment
  | 0, _ => []
  | tries + 1, s =>
    let got := (s.feed.read s.room).1
    let t := { s with feed := (s.feed.read s.room).2 }
    if got.count < 0 ∨ t.room < got.count then [⟨.read s.room got, t⟩]
    else
      let t := t.receive got.count.toNat got.bytes
      ⟨.read s.room got, t⟩ ::
        if got.count = 0 ∧ got.ending = .more then historyMore tries t else []

def historyRefill (s : Lexer) : List Moment :=
  ⟨.slide, s.slide⟩ ::
    if s.capacity ≤ s.pending.length then [] else historyMore maxEmptyReads s.slide

def historyTake (s : Lexer) (n : Nat) : List Moment := [⟨.take (s.pending.take n), s.consume n⟩]

def historyRun (p : UInt8 → Bool) (s : Lexer) : List Moment :=
  if s.pending.length ≤ runLength p s.pending ∧ s.ended = false then
    s.historyRefill ++
      match _h : refill s with
      | .error _ _ => []
      | .ok () t => historyRun p t
  else if s.capacity ≤ runLength p s.pending then []
  else s.historyTake (runLength p s.pending)
termination_by s.refills
decreasing_by exact refills_refill (by simp_all) _h

def historyToken (b : UInt8) (s : Lexer) : List Moment :=
  if isDigit b then historyRun isDigit s
  else if isLetter b then historyRun isAlnum s
  else if (TokenType.mark? b).isSome then s.historyTake 1
  else []

def historyNext (s : Lexer) : List Moment :=
  ⟨.take (s.pending.takeWhile isBlank), s.skipBlanks⟩ ::
    match s.skipBlanks.pending with
    | b :: _ => historyToken b s.skipBlanks
    | [] =>
      if _hended : s.skipBlanks.ended = true then []
      else
        s.skipBlanks.historyRefill ++
          match _h : refill s.skipBlanks with
          | .error _ _ => []
          | .ok () t => historyNext t
termination_by s.refills
decreasing_by exact refills_refill (s := s.skipBlanks) (by simpa using _hended) _h

/-- All that lexing to the end, or to the first error, does to the buffer. -/
def history (s : Lexer) : List Moment :=
  s.historyNext ++
    match _h : next s with
    | .error _ _ => []
    | .ok tok t => if _hne : tok.type = .eof then [] else history t
termination_by (s.refills, s.pending.length)
decreasing_by
  rcases ahead_next _h _hne with h | ⟨h, h'⟩
  · exact .left _ _ h
  · exact h ▸ .right _ h'

theorem historyRun_eq (p : UInt8 → Bool) (s : Lexer) :
    historyRun p s =
      if s.pending.length ≤ runLength p s.pending ∧ s.ended = false then
        s.historyRefill ++
          match refill s with
          | .error _ _ => []
          | .ok () t => historyRun p t
      else if s.capacity ≤ runLength p s.pending then []
      else s.historyTake (runLength p s.pending) := by
  rw [historyRun]
  split
  · split <;> simp_all
  · rfl

theorem historyNext_eq (s : Lexer) :
    historyNext s =
      ⟨.take (s.pending.takeWhile isBlank), s.skipBlanks⟩ ::
        match s.skipBlanks.pending with
        | b :: _ => historyToken b s.skipBlanks
        | [] =>
          if s.skipBlanks.ended = true then []
          else
            s.skipBlanks.historyRefill ++
              match refill s.skipBlanks with
              | .error _ _ => []
              | .ok () t => historyNext t := by
  rw [historyNext]
  split
  · simp_all
  · split
    · simp_all
    · split <;> simp_all

theorem history_eq (s : Lexer) :
    history s =
      s.historyNext ++
        match next s with
        | .error _ _ => []
        | .ok tok t => if tok.type = .eof then [] else history t := by
  rw [history]
  split <;> simp_all

def Act.read? : Act → Option (Nat × Delivery)
  | read room got => some (room, got)
  | _ => none

/-- The reads of a history, each with the free space that it was given. -/
def reads (ms : List Moment) : List (Nat × Delivery) := ms.filterMap (·.act.read?)

theorem reads_append (ms ms' : List Moment) : reads (ms ++ ms') = reads ms ++ reads ms' :=
  List.filterMap_append

/-- Ways in which reading comes to an end that is noticed. -/
inductive Breakdown where
  | failure (text : String)
  | invalidCount (count : Int)
  | noProgress

def Breakdown.problem : Breakdown → Problem
  | failure text => .readFailed text
  | invalidCount count => .invalidCount count
  | noProgress => .noProgress

/-- A read that delivers what it counts and does not end the input. -/
structure Plain (d : Delivery) : Prop where
  count : d.count = d.bytes.length
  ending : d.ending = .more

/-- The reads deliver `bytes`, in any split, up to one that breaks off as `how` says and brings
`last` with it. There were `idle` empty reads just before; a lexer need not make all of the
reads. -/
inductive Breaks : Breakdown → List UInt8 → Nat → List UInt8 → List (Nat × Delivery) → Prop
  | unread {how : Breakdown} {last bytes : List UInt8} {idle : Nat} : Breaks how last idle bytes []
  | failure {text : String} {last : List UInt8} {idle room : Nat} {d : Delivery}
    (count : d.count = d.bytes.length) (ending : d.ending = .failure text)
    (brings : last = d.bytes) : Breaks (.failure text) last idle [] [(room, d)]
  | invalidCount {idle room : Nat} {d : Delivery} (count : d.count < 0 ∨ room < d.count) :
    Breaks (.invalidCount d.count) [] idle [] [(room, d)]
  | noProgress {idle room : Nat} {d : Delivery} (plain : Plain d) (nothing : d.bytes = [])
    (tries : idle + 1 = maxEmptyReads) : Breaks .noProgress [] idle [] [(room, d)]
  | empty {how : Breakdown} {last bytes : List UInt8} {idle room : Nat} {d : Delivery}
    {later : List (Nat × Delivery)} (plain : Plain d) (nothing : d.bytes = [])
    (tries : idle + 1 < maxEmptyReads) (breaks : Breaks how last (idle + 1) bytes later) :
    Breaks how last idle bytes ((room, d) :: later)
  | more {how : Breakdown} {last bytes rest : List UInt8} {idle room : Nat} {d : Delivery}
    {later : List (Nat × Delivery)} (plain : Plain d) (something : d.bytes ≠ [])
    (split : bytes = d.bytes ++ rest) (breaks : Breaks how last 0 rest later) :
    Breaks how last idle bytes ((room, d) :: later)

end Lexer

namespace Munch

open Lexer

/-- The run that starts with `b`, where reading breaks off behind `bs`: what comes next is not
known, so a run that reaches the very end may go on. -/
def runOpen (limit : Nat) (how : Breakdown) (line : Nat) (p : UInt8 → Bool) (b : UInt8)
    (bs : List UInt8) : Except Diagnostic (List UInt8) :=
  let run := b :: bs.takeWhile p
  if limit ≤ run.length then .error ⟨line, .tokenTooLong limit⟩
  else if bs.all p then .error ⟨line, how.problem⟩
  else .ok run

/-- The bytes of the token that starts with `b`, and the token or the error that they make, where
reading breaks off behind `bs`. -/
def cutOpen (limit : Nat) (how : Breakdown) (line : Nat) (b : UInt8) (bs : List UInt8) :
    List UInt8 × Except Diagnostic Token :=
  if isDigit b then
    (b :: bs.takeWhile isDigit, (runOpen limit how line isDigit b bs).bind (number line))
  else if isLetter b then
    (b :: bs.takeWhile isAlnum, (runOpen limit how line isAlnum b bs).bind (word line))
  else cut limit line b bs

theorem cutOpen_pos (limit : Nat) (how : Breakdown) (line : Nat) (b : UInt8) (bs : List UInt8) :
    0 < (cutOpen limit how line b bs).1.length := by
  unfold cutOpen
  split_ifs
  · exact Nat.succ_pos _
  · exact Nat.succ_pos _
  · exact cut_pos limit line b bs

/-- Lexes `rest`, the bytes that follow `before`, where reading breaks off behind them. -/
def lexOpen (limit : Nat) (how : Breakdown) (before rest : List UInt8) : List Token × Diagnostic :=
  match rest with
  | [] => ([], ⟨lineAfter before, how.problem⟩)
  | b :: bs =>
    if isBlank b then lexOpen limit how (before ++ [b]) bs
    else
      let piece := cutOpen limit how (lineAfter before) b bs
      match piece.2 with
      | .error e => ([], e)
      | .ok tok =>
        let more := lexOpen limit how (before ++ piece.1) ((b :: bs).drop piece.1.length)
        (tok :: more.1, more.2)
termination_by rest.length
decreasing_by
  · simp
  · have := cutOpen_pos limit how (lineAfter before) b bs
    simp only [List.length_drop, List.length_cons]
    omega

end Munch

namespace Lexer

variable {how : Breakdown} {last bytes : List UInt8} {later : List (Nat × Delivery)} {s t : Lexer}

/-- `t` is `s` with `got` read in behind the pending bytes. -/
structure Gained (got : List UInt8) (s t : Lexer) : Prop where
  ended : t.ended = false
  capacity : t.capacity = s.capacity
  line : t.line = s.line
  pending : t.pending = s.pending ++ got

theorem readMore_breaks {tries : Nat} (hended : s.ended = false) (hpos : 0 < tries)
    (hle : tries ≤ maxEmptyReads)
    (h : Breaks how last (maxEmptyReads - tries) bytes (reads (historyMore tries s) ++ later)) :
    (bytes = [] ∧ ∃ t, readMore tries s = .error ⟨s.line, how.problem⟩ t) ∨
      ∃ got rest t, bytes = got ++ rest ∧ readMore tries s = .ok () t ∧ Gained got s t ∧
        Breaks how last 0 rest later := by
  induction tries generalizing s with
  | zero => omega
  | succ tries ih =>
    -- the tries that are left and the empty reads so far add up to `maxEmptyReads`
    have hbytes := s.feed.length_read_bytes s.room
    simp only [historyMore] at h
    simp only [readMore]
    generalize s.feed.read s.room = answer at h hbytes ⊢
    obtain ⟨⟨count, got, ending⟩, rest⟩ := answer
    simp only at h hbytes ⊢
    have hroom : ({ s with feed := rest } : Lexer).room = s.room := rfl
    rw [hroom] at h ⊢
    by_cases hbad : count < 0 ∨ (s.room : Int) < count
    · rw [if_pos hbad] at h ⊢
      change Breaks how last _ bytes ((s.room, ⟨count, got, ending⟩) :: later) at h
      -- no read brings more than there is room for, so a refused count is a wrong one
      have hwrong : count ≠ got.length := by omega
      cases h with
      | failure hcount => exact absurd hcount hwrong
      | invalidCount => exact .inl ⟨rfl, _, rfl⟩
      | noProgress hplain => exact absurd hplain.count hwrong
      | empty hplain => exact absurd hplain.count hwrong
      | more hplain => exact absurd hplain.count hwrong
    · rw [if_neg hbad] at h ⊢
      generalize hu : ({ s with feed := rest } : Lexer).receive count.toNat got = u at h ⊢
      have hcap : u.capacity = s.capacity := by rw [← hu]; rfl
      have hline : u.line = s.line := by rw [← hu]; rfl
      have hrun : u.ended = false := by rw [← hu]; exact hended
      have hpend : count = got.length → u.pending = s.pending ++ got := by
        rintro rfl
        rw [← hu]
        exact receive_pending _ got
      change Breaks how last _ bytes ((s.room, ⟨count, got, ending⟩) :: (reads _ ++ later)) at h
      generalize htail : reads _ ++ later = tail at h
      cases h with
      | failure hcount hending =>
        subst hending
        exact .inl ⟨rfl, u, by rw [hline]; rfl⟩
      | invalidCount hcount => exact absurd hcount hbad
      | noProgress hplain hnil htries =>
        obtain ⟨rfl, rfl⟩ : ending = .more ∧ got = [] := ⟨hplain.ending, hnil⟩
        obtain rfl : count = 0 := hplain.count
        obtain rfl : tries = 0 := by omega
        exact .inl ⟨rfl, u, by simp [readMore, hline, Breakdown.problem]⟩
      | empty hplain hnil htries hrest =>
        obtain ⟨rfl, rfl⟩ : ending = .more ∧ got = [] := ⟨hplain.ending, hnil⟩
        obtain rfl : count = 0 := hplain.count
        rw [if_pos ⟨rfl, rfl⟩] at htail
        have hidle : maxEmptyReads - (tries + 1) + 1 = maxEmptyReads - tries := by omega
        rw [hidle, ← htail] at hrest
        have hsame : u.pending = s.pending := by simpa using hpend rfl
        rcases ih hrun (by omega) (by omega) hrest with
          ⟨hnil, t, ht⟩ | ⟨got, rest, t, hb, ht, hg, hl⟩
        · exact .inl ⟨hnil, t, by rw [← hline]; exact ht⟩
        · refine .inr ⟨got, rest, t, hb, ht, ⟨hg.ended, ?_, ?_, ?_⟩, hl⟩
          · rw [hg.capacity, hcap]
          · rw [hg.line, hline]
          · rw [hg.pending, hsame]
      | more hplain hne hsplit hrest =>
        obtain rfl : ending = .more := hplain.ending
        have hcount : count = got.length := hplain.count
        have hgot : 0 < got.length := List.length_pos_iff.2 hne
        rw [if_neg (by omega)] at htail
        obtain rfl : later = tail := htail
        exact .inr ⟨got, _, _, hsplit, if_pos (by omega), ⟨hrun, hcap, hline, hpend hcount⟩, hrest⟩

theorem refill_breaks (hended : s.ended = false) (hlen : s.pending.length < s.capacity)
    (h : Breaks how last 0 bytes (reads s.historyRefill ++ later)) :
    (bytes = [] ∧ ∃ t, refill s = .error ⟨s.line, how.problem⟩ t) ∨
      ∃ got rest t, bytes = got ++ rest ∧ refill s = .ok () t ∧ Gained got s t ∧
        Breaks how last 0 rest later := by
  have hfull : ¬s.capacity ≤ s.pending.length := Nat.not_le.2 hlen
  have hmore : refill s = readMore maxEmptyReads s.slide := if_neg hfull
  rw [historyRefill, if_neg hfull] at h
  rw [hmore]
  rcases readMore_breaks (s := s.slide) hended (by decide) le_rfl h with
    hstop | ⟨got, rest, t, hb, ht, hg, hl⟩
  · exact .inl hstop
  · exact .inr ⟨got, rest, t, hb, ht, ⟨hg.ended, hg.capacity, hg.line, hg.pending⟩, hl⟩

/-- `t` goes on from `s` with the bytes `ahead` before it, some pending and the others still to be
delivered. -/
structure GoesOn (how : Breakdown) (last : List UInt8) (later : List (Nat × Delivery))
    (ahead : List UInt8) (s t : Lexer) : Prop where
  ended : t.ended = false
  capacity : t.capacity = s.capacity
  line : t.line = s.line
  ahead : ∃ rest, t.pending ++ rest = ahead ∧ Breaks how last 0 rest later

/-- A run is settled by the bytes that come before the breakdown, or left open by it. -/
theorem run_breaks {p : UInt8 → Bool} (hended : s.ended = false) (hne : s.pending ≠ [])
    (h : Breaks how last 0 bytes (reads (historyRun p s) ++ later)) :
    let all := s.pending ++ bytes
    if s.capacity ≤ runLength p all then
      ∃ t, run p s = .error ⟨s.line, .tokenTooLong s.capacity⟩ t
    else if runLength p all = all.length then
      ∃ t, run p s = .error ⟨s.line, how.problem⟩ t
    else
      ∃ t, run p s = .ok (all.take (runLength p all)) t ∧
        GoesOn how last later (all.drop (runLength p all)) s t := by
  -- a refill moves bytes from `bytes` to the pending ones, and their concatenation stays the same
  fun_induction run p s generalizing bytes
  case case1 s n hn e t ht =>
    have hn : s.pending.length ≤ runLength p s.pending ∧ s.ended = false := hn
    have hlong := runLength_append_le p s.pending bytes
    rw [historyRun_eq, if_pos hn, reads_append, List.append_assoc] at h
    dsimp only
    by_cases hfull : s.capacity ≤ s.pending.length
    · rw [refill_full hfull] at ht
      obtain ⟨rfl, -⟩ := EStateM.Result.error.inj ht
      rw [if_pos (by omega)]
      exact ⟨t, rfl⟩
    · rcases refill_breaks hn.2 (Nat.not_le.1 hfull) h with ⟨rfl, u, hu⟩ | ⟨_, _, u, _, hu, _⟩
      · obtain ⟨rfl, -⟩ := EStateM.Result.error.inj (ht.symm.trans hu)
        have hall : runLength p (s.pending ++ []) = s.pending.length := by
          rw [List.append_nil]
          exact le_antisymm (runLength_le hne) hn.1
        rw [hall, if_neg hfull, if_pos (by simp)]
        exact ⟨t, rfl⟩
      · rw [ht] at hu
        cases hu
  case case2 s n hn t ht ih =>
    have hn : s.pending.length ≤ runLength p s.pending ∧ s.ended = false := hn
    have hroom : s.pending.length < s.capacity := by
      by_contra hroom
      simp [refill_full (Nat.not_lt.1 hroom)] at ht
    rw [historyRun_eq, if_pos hn, ht, reads_append, List.append_assoc] at h
    rcases refill_breaks hn.2 hroom h with ⟨_, u, hu⟩ | ⟨got, rest, u, rfl, hu, hgain, hlater⟩
    · rw [ht] at hu
      cases hu
    · obtain ⟨-, rfl⟩ := EStateM.Result.ok.inj (ht.symm.trans hu)
      have hne' : t.pending ≠ [] := by
        rw [hgain.pending]
        exact List.append_ne_nil_of_left_ne_nil hne got
      have key := ih hgain.ended hne' hlater
      rw [hgain.pending, List.append_assoc, hgain.capacity, hgain.line] at key
      dsimp only at key ⊢
      split_ifs at key ⊢
      · exact key
      · exact key
      · obtain ⟨v, hv, hgo⟩ := key
        refine ⟨v, hv, hgo.ended, hgo.capacity.trans hgain.capacity, hgo.line.trans hgain.line, ?_⟩
        exact hgo.ahead
  case case3 s n hn hcap =>
    have hlong := runLength_append_le p s.pending bytes
    have hcap : s.capacity ≤ runLength p s.pending := hcap
    dsimp only
    rw [if_pos (by omega)]
    exact ⟨s, rfl⟩
  case case4 s n hn hcap =>
    have hn : ¬(s.pending.length ≤ runLength p s.pending ∧ s.ended = false) := hn
    have hlt : runLength p s.pending < s.pending.length := by
      by_contra hlt
      exact hn ⟨Nat.not_lt.1 hlt, hended⟩
    have hcap : ¬s.capacity ≤ runLength p s.pending := hcap
    have hle := Nat.le_of_lt hlt
    rw [historyRun_eq, if_neg hn, if_neg hcap] at h
    dsimp only
    rw [runLength_append hlt, if_neg hcap, if_neg (by rw [List.length_append]; omega)]
    refine ⟨s.consume (runLength p s.pending), ?_, hended, rfl, rfl, bytes, ?_, h⟩
    · rw [List.take_append_of_le_length hle]
      rfl
    · rw [List.drop_append_of_le_length hle]
      rfl

theorem runLength_cons (p : UInt8 → Bool) (b : UInt8) (bs : List UInt8) :
    runLength p (b :: bs) = (b :: bs.takeWhile p).length := by
  rw [runLength, List.tail_cons, List.length_cons, Nat.add_comm]

theorem runLength_eq_length_iff {p : UInt8 → Bool} {b : UInt8} {bs : List UInt8} :
    runLength p (b :: bs) = (b :: bs).length ↔ bs.all p := by
  rw [runLength_cons, List.length_cons, List.length_cons, Nat.succ_inj, List.all_eq_true,
    ← List.takeWhile_eq_self_iff]
  constructor
  · intro h
    exact (List.takeWhile_prefix p).eq_of_length h
  · intro h
    rw [h]

/-- Lexing yields what cutting `piece` off the bytes `ahead` yields. -/
inductive Yields {α : Type} (how : Breakdown) (last : List UInt8) (later : List (Nat × Delivery))
    (ahead : List UInt8) (s : Lexer) : List UInt8 × Except Diagnostic α → Outcome α → Prop
  | error {piece : List UInt8} {e : Diagnostic} {t : Lexer} :
    Yields how last later ahead s (piece, .error e) (.error e t)
  | ok {piece : List UInt8} {a : α} {t : Lexer}
    (goes : GoesOn how last later (ahead.drop piece.length) s t) :
    Yields how last later ahead s (piece, .ok a) (.ok a t)

theorem run_yields {p : UInt8 → Bool} {b : UInt8} {bs : List UInt8} (hended : s.ended = false)
    (hne : s.pending ≠ []) (hall : s.pending ++ bytes = b :: bs)
    (h : Breaks how last 0 bytes (reads (historyRun p s) ++ later)) :
    Yields how last later (b :: bs) s
      (b :: bs.takeWhile p, Munch.runOpen s.capacity how s.line p b bs) (run p s) := by
  have key := run_breaks hended hne h
  simp only [hall, take_runLength, runLength_eq_length_iff] at key
  rw [runLength_cons] at key
  unfold Munch.runOpen
  dsimp only
  split_ifs at key ⊢
  · obtain ⟨t, ht⟩ := key
    rw [ht]
    exact .error
  · obtain ⟨t, ht⟩ := key
    rw [ht]
    exact .error
  · obtain ⟨t, ht, hgo⟩ := key
    rw [ht]
    exact .ok hgo

/-- A token is cut off as from the bytes that come before the breakdown. -/
theorem token_yields {b : UInt8} {bs : List UInt8} (hended : s.ended = false)
    (hne : s.pending ≠ []) (hall : s.pending ++ bytes = b :: bs)
    (h : Breaks how last 0 bytes (reads (historyToken b s) ++ later)) :
    Yields how last later (b :: bs) s (Munch.cutOpen s.capacity how s.line b bs) (token b s) := by
  unfold historyToken at h
  unfold Munch.cutOpen token
  split_ifs at h ⊢ with hd hl
  · have key := run_yields hended hne hall h
    unfold number
    generalize Munch.runOpen s.capacity how s.line isDigit b bs = r, run isDigit s = o at key ⊢
    cases key with
    | error => exact .error
    | ok hgo =>
      dsimp only [Except.bind]
      unfold Munch.number
      split
      · exact .error
      · exact .ok hgo
  · have key := run_yields hended hne hall h
    unfold word
    generalize Munch.runOpen s.capacity how s.line isAlnum b bs = r, run isAlnum s = o at key ⊢
    cases key with
    | error => exact .error
    | ok hgo =>
      dsimp only [Except.bind]
      unfold Munch.word
      cases TokenType.keyword? (ascii _) with
      | some type => exact .ok hgo
      | none => exact .ok hgo
  · rename_i hmark
    obtain ⟨type, hmark⟩ := Option.isSome_iff_exists.1 hmark
    obtain ⟨c, cs, hcs⟩ := List.exists_cons_of_ne_nil hne
    obtain ⟨-, rfl⟩ : c = b ∧ cs ++ bytes = bs := by simpa [hcs] using hall
    simp only [Munch.cut, if_neg hd, if_neg hl, hmark]
    exact .ok ⟨hended, rfl, rfl, bytes, by simp [consume, hcs], h⟩
  · rename_i hmark
    have hmark := Option.not_isSome_iff_eq_none.1 hmark
    simp only [Munch.cut, if_neg hd, if_neg hl, hmark]
    exact .error

end Lexer

namespace Munch

theorem lexOpen_blanks (limit : Nat) (how : Lexer.Breakdown) (before rest : List UInt8)
    {ws : List UInt8} (hws : ∀ b ∈ ws, Lexer.isBlank b) :
    lexOpen limit how before (ws ++ rest) = lexOpen limit how (before ++ ws) rest := by
  induction ws generalizing before with
  | nil => rw [List.nil_append, List.append_nil]
  | cons b ws ih =>
    rw [List.forall_mem_cons] at hws
    rw [List.cons_append, lexOpen, if_pos hws.1, ih _ hws.2, List.append_assoc,
      List.singleton_append]

theorem lexOpen_cut (limit : Nat) (how : Lexer.Breakdown) (before bs : List UInt8) {b : UInt8}
    (hb : Lexer.isBlank b = false) :
    lexOpen limit how before (b :: bs) =
      match (cutOpen limit how (lineAfter before) b bs).2 with
      | .error e => ([], e)
      | .ok tok =>
        let piece := (cutOpen limit how (lineAfter before) b bs).1
        let more := lexOpen limit how (before ++ piece) ((b :: bs).drop piece.length)
        (tok :: more.1, more.2) := by
  rw [lexOpen]
  exact if_neg (by simp [hb])

theorem takeWhile_append_of_not_all {p : UInt8 → Bool} {bs : List UInt8} (h : ¬bs.all p)
    (c : List UInt8) : (bs ++ c).takeWhile p = bs.takeWhile p := by
  rw [List.takeWhile_append, if_neg]
  intro hlen
  rw [List.all_eq_true, ← List.takeWhile_eq_self_iff] at h
  exact h ((List.takeWhile_prefix p).eq_of_length hlen)

theorem runOpen_bind_eq_ok {limit : Nat} {how : Lexer.Breakdown} {line : Nat} {p : UInt8 → Bool}
    {b : UInt8} {bs : List UInt8} {f : List UInt8 → Except Diagnostic Token} {tok : Token}
    (h : (runOpen limit how line p b bs).bind f = .ok tok) :
    ¬bs.all p ∧ ¬limit ≤ (b :: bs.takeWhile p).length ∧ f (b :: bs.takeWhile p) = .ok tok := by
  unfold runOpen at h
  dsimp only at h
  split_ifs at h with hlimit hall
  · cases h
  · cases h
  · exact ⟨hall, hlimit, h⟩

/-- A token that is settled stays the same token, whatever comes next. -/
theorem cut_append_of_cutOpen {limit : Nat} {how : Lexer.Breakdown} {line : Nat} {b : UInt8}
    {bs piece : List UInt8} {tok : Token} (h : cutOpen limit how line b bs = (piece, .ok tok))
    (c : List UInt8) : cut limit line b (bs ++ c) = (piece, .ok tok) := by
  unfold cutOpen at h
  unfold cut at h ⊢
  split_ifs at h ⊢
  · obtain ⟨rfl, hrun⟩ := Prod.mk.inj h
    obtain ⟨hall, hlimit, hnumber⟩ := runOpen_bind_eq_ok hrun
    dsimp only
    rw [takeWhile_append_of_not_all hall, if_neg hlimit, hnumber]
  · obtain ⟨rfl, hrun⟩ := Prod.mk.inj h
    obtain ⟨hall, hlimit, hword⟩ := runOpen_bind_eq_ok hrun
    dsimp only
    rw [takeWhile_append_of_not_all hall, if_neg hlimit, hword]
  · exact h

theorem cutOpen_fst (limit : Nat) (how : Lexer.Breakdown) (line : Nat) (b : UInt8)
    (bs : List UInt8) : (cutOpen limit how line b bs).1 = (cut limit line b bs).1 := by
  unfold cutOpen cut
  split_ifs <;> rfl

end Munch

namespace Lexer

variable {how : Breakdown} {last bytes : List UInt8} {later : List (Nat × Delivery)} {s t : Lexer}

theorem lexOpen_skipBlanks (limit : Nat) (how : Breakdown) (before bytes : List UInt8) (s : Lexer) :
    Munch.lexOpen limit how before (s.pending ++ bytes) =
      Munch.lexOpen limit how (before ++ s.pending.takeWhile isBlank)
        (s.skipBlanks.pending ++ bytes) := by
  rw [← Munch.lexOpen_blanks limit how before _ fun b hb => List.mem_takeWhile_imp hb,
    ← List.append_assoc, skipBlanks_pending, List.takeWhile_append_dropWhile]

/-- The next token is the first one that `lexOpen` finds, and it goes on with the others. -/
inductive Follows (how : Breakdown) (last : List UInt8) (later : List (Nat × Delivery))
    (limit : Nat) (before ahead : List UInt8) : Outcome Token → Prop
  | error {e : Diagnostic} {t : Lexer} (lex : Munch.lexOpen limit how before ahead = ([], e)) :
    Follows how last later limit before ahead (.error e t)
  | ok {tok : Token} {t : Lexer} {before' rest : List UInt8} (type : tok.type ≠ .eof)
    (ended : t.ended = false) (capacity : t.capacity = limit)
    (line : t.line = Munch.lineAfter before') (breaks : Breaks how last 0 rest later)
    (lex : Munch.lexOpen limit how before ahead =
      (tok :: (Munch.lexOpen limit how before' (t.pending ++ rest)).1,
        (Munch.lexOpen limit how before' (t.pending ++ rest)).2)) :
    Follows how last later limit before ahead (.ok tok t)

theorem Follows.of_lexOpen_eq {limit : Nat} {before before' ahead ahead' : List UInt8}
    {o : Outcome Token}
    (heq : Munch.lexOpen limit how before ahead = Munch.lexOpen limit how before' ahead')
    (h : Follows how last later limit before' ahead' o) :
    Follows how last later limit before ahead o := by
  cases h with
  | error hlex => exact .error (heq.trans hlex)
  | ok htype hended hcap hline hbreaks hlex =>
    exact .ok htype hended hcap hline hbreaks (heq.trans hlex)

theorem token_follows {before bs : List UInt8} {b : UInt8} (hended : s.ended = false)
    (hne : s.pending ≠ []) (hall : s.pending ++ bytes = b :: bs) (hb : isBlank b = false)
    (hline : s.line = Munch.lineAfter before)
    (h : Breaks how last 0 bytes (reads (historyToken b s) ++ later)) :
    Follows how last later s.capacity before (s.pending ++ bytes) (token b s) := by
  have key := token_yields hended hne hall h
  have hlex := Munch.lexOpen_cut s.capacity how before bs hb
  have hpiece := Munch.cutOpen_fst s.capacity how s.line b bs
  have hsame := lineAfter_append_cut s.capacity s.line hb before bs
  rw [← hpiece] at hsame
  rw [← hline] at hlex
  rw [hall]
  generalize hcut : Munch.cutOpen s.capacity how s.line b bs = piece, token b s = o
    at key hlex hsame ⊢
  cases key with
  | error => exact .error hlex
  | ok hgo =>
    obtain ⟨rest, hrest, hbreaks⟩ := hgo.ahead
    have hok := Munch.cut_append_of_cutOpen hcut []
    rw [List.append_nil] at hok
    refine .ok (Munch.cut_type_ne_eof (congrArg Prod.snd hok)) hgo.ended hgo.capacity
      (hgo.line.trans (hline.trans hsame.symm)) hbreaks ?_
    rw [hlex, hrest]

theorem next_follows {before : List UInt8} (hended : s.ended = false) (hpos : 0 < s.capacity)
    (hline : s.line = Munch.lineAfter before)
    (h : Breaks how last 0 bytes (reads s.historyNext ++ later)) :
    Follows how last later s.capacity before (s.pending ++ bytes) (next s) := by
  fun_induction next s generalizing before bytes
  case case1 s b rest hp =>
    rw [historyNext_eq, hp] at h
    have hb : isBlank b = false := by
      have hhead := List.head?_dropWhile_not isBlank s.pending
      rw [← skipBlanks_pending, hp] at hhead
      simpa using hhead
    have hall : s.skipBlanks.pending ++ bytes = b :: (rest ++ bytes) := by rw [hp, List.cons_append]
    have key := token_follows (s := s.skipBlanks) hended (by simp [hp]) hall hb
      (skipBlanks_line hline) h
    exact .of_lexOpen_eq (lexOpen_skipBlanks s.capacity how before bytes s) key
  case case2 s hp hstop => exact absurd hstop (by simp [hended, skipBlanks, consume])
  case case3 s hp hrun e t ht =>
    rw [historyNext_eq, hp] at h
    simp only [if_neg hrun] at h
    change Breaks how last 0 bytes (reads (s.skipBlanks.historyRefill ++ _) ++ later) at h
    rw [reads_append, List.append_assoc] at h
    -- the buffer is empty, so a refill fails only where reading breaks off
    rcases refill_breaks (s := s.skipBlanks) hended (by rw [hp]; exact hpos) h with
      ⟨rfl, u, hu⟩ | ⟨_, _, u, _, hu, _⟩
    · obtain ⟨rfl, -⟩ := EStateM.Result.error.inj (ht.symm.trans hu)
      apply Follows.error
      rw [lexOpen_skipBlanks, hp, skipBlanks_line hline]
      exact Munch.lexOpen.eq_def ..
    · rw [ht] at hu
      cases hu
  case case4 s hp hrun t ht ih =>
    rw [historyNext_eq, hp] at h
    simp only [if_neg hrun, ht] at h
    change Breaks how last 0 bytes (reads (s.skipBlanks.historyRefill ++ _) ++ later) at h
    rw [reads_append, List.append_assoc] at h
    rcases refill_breaks (s := s.skipBlanks) hended (by rw [hp]; exact hpos) h with
      ⟨_, u, hu⟩ | ⟨got, rest, u, rfl, hu, hgain, hlater⟩
    · rw [ht] at hu
      cases hu
    · obtain ⟨-, rfl⟩ := EStateM.Result.ok.inj (ht.symm.trans hu)
      have hcap : t.capacity = s.capacity := hgain.capacity
      -- the pending blanks count as read, and what the refill brought is pending now
      have key := ih hgain.ended (hcap ▸ hpos) (hgain.line.trans (skipBlanks_line hline)) hlater
      rw [hgain.pending, List.append_assoc, hcap] at key
      exact .of_lexOpen_eq (lexOpen_skipBlanks s.capacity how before (got ++ rest) s) key

/-- From any state on, the lexer finds what the bytes before the breakdown say. -/
theorem tokens_eq_lexOpen {before : List UInt8} (hended : s.ended = false) (hpos : 0 < s.capacity)
    (hline : s.line = Munch.lineAfter before) (h : Breaks how last 0 bytes (reads s.history)) :
    ∃ t, s.tokens = ((Munch.lexOpen s.capacity how before (s.pending ++ bytes)).1,
      .error (Munch.lexOpen s.capacity how before (s.pending ++ bytes)).2 t) := by
  fun_induction tokens s generalizing before bytes
  case case1 s e t ht =>
    rw [history_eq, ht, reads_append] at h
    have key := next_follows hended hpos hline h
    rw [ht] at key
    cases key with
    | error hlex => exact ⟨t, by rw [hlex]⟩
  case case2 s tok t ht heof =>
    rw [history_eq, ht, reads_append] at h
    have key := next_follows hended hpos hline h
    rw [ht] at key
    cases key with
    | ok htype => exact absurd heof htype
  case case3 s tok t ht hne rest ih =>
    rw [history_eq, ht, reads_append] at h
    have key := next_follows hended hpos hline h
    rw [ht] at key
    cases key with
    | ok htype hended hcap hline hbreaks hlex =>
      simp only [if_neg hne] at hbreaks
      obtain ⟨u, hu⟩ := ih hended (hcap ▸ hpos) hline hbreaks
      refine ⟨u, ?_⟩
      change (tok :: t.tokens.1, t.tokens.2) = _
      rw [hlex, ← hcap, hu]

end Lexer

def history (feed : Feed) (size : Option Int) : List Lexer.Moment := (Lexer.start feed size).history

theorem Lexer.capacityOf_pos (size : Option Int) : 0 < capacityOf size := by
  unfold capacityOf minCapacity defaultCapacity
  split <;> omega

/-- Whatever is delivered before reading breaks off decides what is found. -/
theorem tokenize_eq_lexOpen {feed : Feed} {size : Option Int} {how : Lexer.Breakdown}
    {last bytes : List UInt8}
    (h : Lexer.Breaks how last 0 bytes (Lexer.reads (history feed size))) :
    (tokenize feed size).tokens = (Munch.lexOpen (Lexer.capacityOf size) how [] bytes).1 ∧
      (tokenize feed size).error = some (Munch.lexOpen (Lexer.capacityOf size) how [] bytes).2 := by
  have hline : (Lexer.start feed size).line = Munch.lineAfter [] := rfl
  obtain ⟨t, ht⟩ := Lexer.tokens_eq_lexOpen rfl (Lexer.capacityOf_pos size) hline h
  have hstart : (Lexer.start feed size).pending ++ bytes = bytes := rfl
  rw [tokenize, ht, hstart]
  exact ⟨rfl, rfl⟩

/-- A failing source is reported alike however its reads are cut: where two feeds deliver the same
bytes before the read that fails, and the same ones with it, the tokens and the error are the
same. -/
theorem failure_split_irrelevant (f g : Feed) (size : Option Int) (text : String)
    (bytes last : List UInt8)
    (hf : Lexer.Breaks (.failure text) last 0 bytes (Lexer.reads (history f size)))
    (hg : Lexer.Breaks (.failure text) last 0 bytes (Lexer.reads (history g size))) :
    (tokenize f size).tokens = (tokenize g size).tokens ∧
      (tokenize f size).error = (tokenize g size).error := by
  obtain ⟨hftokens, hferror⟩ := tokenize_eq_lexOpen hf
  obtain ⟨hgtokens, hgerror⟩ := tokenize_eq_lexOpen hg
  exact ⟨hftokens.trans hgtokens.symm, hferror.trans hgerror.symm⟩

/-- Two statements on two lines, and then a failure. -/
def failing (script : List ReadEvent) : Feed where
  bytes := [97, 59, 10, 98, 59]
  script

def failingAlone : Feed := failing [.deliver 5 .more, .deliver 0 (.failure "gone")]

def failingLate : Feed :=
  failing [.deliver 1 .more, .deliver 0 .more, .deliver 3 .more, .deliver 1 .more,
    .deliver 0 (.failure "gone")]

/-- The failure comes with all of the bytes. -/
def failingAtOnce : Feed := failing [.deliver 5 (.failure "gone")]

/-- A word that straddles two reads with an empty one between them, a mark, and the first byte of
another word together with a failure. -/
def breaking : Feed where
  bytes := [97, 98, 59, 99]
  script := [.deliver 1 .more, .claim 0, .deliver 2 .more, .deliver 1 (.failure "gone")]

theorem reads_failing :
    Lexer.reads (history failingAlone none) =
        [(64, ⟨5, [97, 59, 10, 98, 59], .more⟩), (64, ⟨0, [], .failure "gone"⟩)] ∧
      Lexer.reads (history failingLate none) =
        [(64, ⟨1, [97], .more⟩), (63, ⟨0, [], .more⟩), (63, ⟨3, [59, 10, 98], .more⟩),
          (63, ⟨1, [59], .more⟩), (64, ⟨0, [], .failure "gone"⟩)] ∧
      Lexer.reads (history failingAtOnce none) =
        [(64, ⟨5, [97, 59, 10, 98, 59], .failure "gone"⟩)] ∧
      Lexer.reads (history breaking (some 3)) =
        [(3, ⟨1, [97], .more⟩), (2, ⟨0, [], .more⟩), (2, ⟨2, [98, 59], .more⟩),
          (3, ⟨1, [99], .failure "gone"⟩)] := by
  simp [history, failingAlone, failingLate, failingAtOnce, failing, breaking, Lexer.start,
    Lexer.capacityOf, Lexer.defaultCapacity, Lexer.minCapacity, Lexer.history_eq, Lexer.historyNext_eq,
    Lexer.historyToken,
    Lexer.historyRun_eq, Lexer.historyRefill, Lexer.historyMore, Lexer.historyTake, Lexer.reads,
    Lexer.Act.read?, Lexer.runLength, Lexer.next_eq, Lexer.token, Lexer.word, Lexer.run_eq,
    Lexer.refill, Lexer.readMore, Lexer.skipBlanks, Lexer.consume, Lexer.slide, Lexer.receive,
    Lexer.room, Lexer.maxEmptyReads, Lexer.isBlank, Lexer.isDigit, Lexer.isLetter, Lexer.isAlnum,
    Lexer.ascii, Feed.read, TokenType.mark?, TokenType.keyword?, List.takeWhile]

theorem breaks_failingAlone :
    Lexer.Breaks (.failure "gone") [] 0 [97, 59, 10, 98, 59]
      (Lexer.reads (history failingAlone none)) := by
  rw [reads_failing.1]
  exact .more ⟨rfl, rfl⟩ (by simp) rfl (.failure rfl rfl rfl)

theorem failure_split_irrelevant_late :
    Lexer.Breaks (.failure "gone") [] 0 [97, 59, 10, 98, 59]
        (Lexer.reads (history failingAlone none)) ∧
      Lexer.Breaks (.failure "gone") [] 0 [97, 59, 10, 98, 59]
        (Lexer.reads (history failingLate none)) ∧
      (tokenize failingAlone none).tokens = (tokenize failingLate none).tokens ∧
      (tokenize failingAlone none).error = (tokenize failingLate none).error := by
  have hlate : Lexer.Breaks (.failure "gone") [] 0 [97, 59, 10, 98, 59]
      (Lexer.reads (history failingLate none)) := by
    rw [reads_failing.2.1]
    exact .more ⟨rfl, rfl⟩ (by simp) rfl (.empty ⟨rfl, rfl⟩ rfl (by decide)
      (.more ⟨rfl, rfl⟩ (by simp) rfl (.more ⟨rfl, rfl⟩ (by simp) rfl (.failure rfl rfl rfl))))
  exact ⟨breaks_failingAlone, hlate,
    failure_split_irrelevant _ _ none "gone" _ [] breaks_failingAlone hlate⟩

/-- Both feeds deliver the same bytes and fail in the same way, and yet the tokens that come with
the failing read are not found, and the line is another one. -/
theorem failure_with_bytes_hides_tokens :
    Lexer.Breaks (.failure "gone") [] 0 [97, 59, 10, 98, 59]
        (Lexer.reads (history failingAlone none)) ∧
      Lexer.Breaks (.failure "gone") [97, 59, 10, 98, 59] 0 []
        (Lexer.reads (history failingAtOnce none)) ∧
      (tokenize failingAlone none).tokens.length = 4 ∧
      (tokenize failingAlone none).error = some ⟨2, .readFailed "gone"⟩ ∧
      (tokenize failingAtOnce none).tokens = [] ∧
      (tokenize failingAtOnce none).error = some ⟨1, .readFailed "gone"⟩ := by
  have hatOnce : Lexer.Breaks (.failure "gone") [97, 59, 10, 98, 59] 0 []
      (Lexer.reads (history failingAtOnce none)) := by
    rw [reads_failing.2.2.1]
    exact .failure rfl rfl rfl
  have hlex : Munch.lexOpen 64 (.failure "gone") [] [97, 59, 10, 98, 59] =
      ([⟨.identifier, "a", 0, 1⟩, ⟨.semicolon, "", 0, 1⟩, ⟨.identifier, "b", 0, 2⟩,
        ⟨.semicolon, "", 0, 2⟩], ⟨2, .readFailed "gone"⟩) := by
    decide +kernel
  obtain ⟨htokens, herror⟩ := tokenize_eq_lexOpen breaks_failingAlone
  obtain ⟨htokens', herror'⟩ := tokenize_eq_lexOpen hatOnce
  change _ = (Munch.lexOpen 64 _ _ _).1 at htokens
  change _ = some (Munch.lexOpen 64 _ _ _).2 at herror
  rw [hlex] at htokens herror
  rw [Munch.lexOpen] at htokens' herror'
  exact ⟨breaks_failingAlone, hatOnce, by rw [htokens]; rfl, herror, htokens', herror'⟩

end OnePass
