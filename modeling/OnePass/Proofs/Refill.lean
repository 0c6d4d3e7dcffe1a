import Mathlib
import OnePass.Proofs.Munch

namespace OnePass

namespace Feed

theorem read_bytes (f : Feed) (room : Nat) :
    (f.read room).1.bytes ++ (f.read room).2.bytes = f.bytes := by
  unfold read
  split
  · simp
  · simp
  · split <;> simp

theorem length_read_bytes (f : Feed) (room : Nat) : (f.read room).1.bytes.length ≤ room := by
  have hstride : f.pace.stride room ≤ room := by
    unfold Pace.stride
    split <;> omega
  unfold read
  split
  · simp only [List.length_take]
    omega
  · simp
  · split
    · simp
    · simp only [List.length_take]
      omega

end Feed

namespace Lexer

def readsMore : Nat → Lexer → List Delivery
  | 0, _ => []
  | tries + 1, s =>
    let got := (s.feed.read s.room).1
    let s := { s with feed := (s.feed.read s.room).2 }
    if got.count = 0 ∧ got.ending = .more then got :: readsMore tries (s.receive 0 got.bytes)
    else [got]

def readsRefill (s : Lexer) : List Delivery :=
  if s.capacity ≤ s.pending.length then [] else readsMore maxEmptyReads s.slide

def readsRun (p : UInt8 → Bool) (s : Lexer) : List Delivery :=
  if s.pending.length ≤ 1 + (s.pending.tail.takeWhile p).length ∧ s.ended = false then
    s.readsRefill ++
      match _h : refill s with
      | .error _ _ => []
      | .ok () t => readsRun p t
  else []
termination_by s.refills
decreasing_by exact refills_refill (by simp_all) _h

def readsToken (b : UInt8) (s : Lexer) : List Delivery :=
  if isDigit b then readsRun isDigit s else if isLetter b then readsRun isAlnum s else []

def readsNext (s : Lexer) : List Delivery :=
  match s.skipBlanks.pending with
  | b :: _ => readsToken b s.skipBlanks
  | [] =>
    if _hended : s.skipBlanks.ended = true then []
    else
      s.skipBlanks.readsRefill ++
        match _h : refill s.skipBlanks with
        | .error _ _ => []
        | .ok () t => readsNext t
termination_by s.refills
decreasing_by exact refills_refill (s := s.skipBlanks) (by simpa using _hended) _h

def readsTokens (s : Lexer) : List Delivery :=
  s.readsNext ++
    match _h : next s with
    | .error _ _ => []
    | .ok tok t => if _hne : tok.type = .eof then [] else readsTokens t
termination_by (s.refills, s.pending.length)
decreasing_by
  rcases ahead_next _h _hne with h | ⟨h, h'⟩
  · exact .left _ _ h
  · exact h ▸ .right _ h'

theorem run_eq (p : UInt8 → Bool) (s : Lexer) :
    run p s =
      let n := 1 + (s.pending.tail.takeWhile p).length
      if s.pending.length ≤ n ∧ s.ended = false then
        match refill s with
        | .error e t => .error e t
        | .ok () t => run p t
      else if s.capacity ≤ n then .error ⟨s.line, .tokenTooLong s.capacity⟩ s
      else .ok (s.pending.take n) (s.consume n) := by
  rw [run]
  split
  · split <;> simp_all
  · simp_all

theorem next_eq (s : Lexer) :
    next s =
      match s.skipBlanks.pending with
      | b :: _ => token b s.skipBlanks
      | [] =>
        if s.skipBlanks.ended = true then
          .ok { type := .eof, line := s.skipBlanks.line } s.skipBlanks
        else
          match refill s.skipBlanks with
          | .error e t => .error e t
          | .ok () t => next t := by
  rw [next]
  split
  · simp_all
  · split
    · simp_all
    · split <;> simp_all

theorem readsRun_eq (p : UInt8 → Bool) (s : Lexer) :
    readsRun p s =
      if s.pending.length ≤ 1 + (s.pending.tail.takeWhile p).length ∧ s.ended = false then
        s.readsRefill ++
          match refill s with
          | .error _ _ => []
          | .ok () t => readsRun p t
      else [] := by
  rw [readsRun]
  split
  · split <;> simp_all
  · rfl

theorem readsNext_eq (s : Lexer) :
    readsNext s =
      match s.skipBlanks.pending with
      | b :: _ => readsToken b s.skipBlanks
      | [] =>
        if s.skipBlanks.ended = true then []
        else
          s.skipBlanks.readsRefill ++
            match refill s.skipBlanks with
            | .error _ _ => []
            | .ok () t => readsNext t := by
  rw [readsNext]
  split
  · simp_all
  · split
    · simp_all
    · split <;> simp_all

theorem readsTokens_eq (s : Lexer) :
    readsTokens s =
      s.readsNext ++
        match next s with
        | .error _ _ => []
        | .ok tok t => if tok.type = .eof then [] else readsTokens t := by
  rw [readsTokens]
  split <;> simp_all

/-- The reads deliver `bytes` and nothing else: each returns as many bytes as it counts, none fails,
fewer than `maxEmptyReads` in a row return nothing, and the end of the input is signalled with the
last byte or after it. There were `idle` empty reads just before. -/
def Deliver (idle : Nat) (bytes : List UInt8) : List Delivery → Prop
  | [] => True
  | d :: ds =>
    d.count = d.bytes.length ∧
      match d.ending with
      | .failure _ => False
      | .endOfInput => d.bytes = bytes
      | .more =>
        if d.bytes = [] then idle + 1 < maxEmptyReads ∧ Deliver (idle + 1) bytes ds
        else Deliver 0 (bytes.drop d.bytes.length) ds

/-- The buffer is not overfull, and its input has ended only if nothing is left to be read. -/
structure Sound (s : Lexer) : Prop where
  positive : 0 < s.capacity
  bounded : s.pending.length ≤ s.capacity
  ended : s.ended = true → s.feed.bytes = []

/-- The bytes that are still to be lexed, read or not. -/
def left (s : Lexer) : List UInt8 := s.pending ++ s.feed.bytes

/-- `t` is `s` with the next `n` bytes taken, whatever was read meanwhile. -/
structure Took (n : Nat) (s t : Lexer) : Prop where
  sound : t.Sound
  capacity : t.capacity = s.capacity
  line : t.line = s.line
  left : t.left = s.left.drop n

theorem Took.trans {n : Nat} {s t u : Lexer} (h : Took 0 s t) (h' : Took n t u) : Took n s u where
  sound := h'.sound
  capacity := h'.capacity.trans h.capacity
  line := h'.line.trans h.line
  left := by rw [h'.left, h.left, List.drop_zero]

theorem receive_pending (s : Lexer) (bytes : List UInt8) :
    (s.receive bytes.length bytes).pending = s.pending ++ bytes := by
  simp [receive]

/-- What a read brings comes off the front of the feed and goes behind the pending bytes. -/
theorem took_receive {s : Lexer} {rest : Feed} {bytes : List UInt8} (hended : s.ended = false)
    (hlen : s.pending.length < s.capacity) (hbytes : bytes ++ rest.bytes = s.feed.bytes)
    (hroom : bytes.length ≤ s.capacity - s.pending.length) :
    Took 0 s (({ s with feed := rest } : Lexer).receive bytes.length bytes) := by
  have hpend := receive_pending { s with feed := rest } bytes
  exact
    { sound :=
        { positive := Nat.zero_lt_of_lt hlen
          bounded := by
            rw [hpend, List.length_append]
            change _ ≤ s.capacity
            simp only
            omega
          ended := fun he => absurd (hended.symm.trans he) (by decide) }
      capacity := rfl
      line := rfl
      left := by
        rw [Lexer.left, hpend, Lexer.left, ← hbytes, List.drop_zero, ← List.append_assoc]
        rfl }

theorem Took.stop {s t : Lexer} (h : Took 0 s t) (hnil : t.feed.bytes = []) :
    Took 0 s { t with ended := true } where
  sound := ⟨h.sound.positive, h.sound.bounded, fun _ => hnil⟩
  capacity := h.capacity
  line := h.line
  left := h.left

theorem took_readMore {tries : Nat} {s : Lexer} {later : List Delivery}
    (hended : s.ended = false) (hlen : s.pending.length < s.capacity)
    (hpos : 0 < tries) (hle : tries ≤ maxEmptyReads)
    (h : Deliver (maxEmptyReads - tries) s.feed.bytes (readsMore tries s ++ later)) :
    ∃ t, readMore tries s = .ok () t ∧ Took 0 s t ∧
      (t.ended = false → Deliver 0 t.feed.bytes later) := by
  induction tries generalizing s with
  | zero => omega
  | succ tries ih =>
    -- the tries that are left and the empty reads so far add up to `maxEmptyReads`
    have hbytes := s.feed.read_bytes s.room
    have hroom : (s.feed.read s.room).1.bytes.length ≤ s.capacity - s.pending.length :=
      s.feed.length_read_bytes s.room
    simp only [readsMore] at h
    simp only [readMore]
    generalize s.feed.read s.room = got at h hbytes hroom ⊢
    obtain ⟨⟨count, bytes, ending⟩, rest⟩ := got
    simp only at h hbytes hroom ⊢
    have hcount : count = bytes.length := by
      split at h
      · exact h.1
      · exact h.1
    subst hcount
    have hin : ¬((bytes.length : Int) < 0 ∨
        (({ s with feed := rest } : Lexer).room : Int) < bytes.length) := by
      change ¬(_ ∨ ((s.capacity - s.pending.length : Nat) : Int) < _)
      omega
    rw [if_neg hin, Int.toNat_natCast]
    have hsu := took_receive hended hlen hbytes hroom
    generalize hu : ({ s with feed := rest } : Lexer).receive bytes.length bytes = u at hsu ⊢
    have hfeed : u.feed.bytes = s.feed.bytes.drop bytes.length := by
      rw [← hu, ← hbytes, List.drop_left]
      rfl
    have hrun : u.ended = false := by rw [← hu]; exact hended
    cases ending with
    | failure text => simp [Deliver] at h
    | endOfInput =>
      simp only [reduceCtorEq, and_false, ↓reduceIte, List.cons_append, List.nil_append, Deliver,
        true_and] at h
      have hnil : u.feed.bytes = [] := by simp [hfeed, h]
      exact ⟨_, rfl, hsu.stop hnil, fun he => by simp at he⟩
    | more =>
      by_cases hb : bytes = []
      · subst hb
        simp only [List.length_nil, Nat.cast_zero, and_self, ↓reduceIte, List.cons_append, Deliver,
          true_and] at h
        have hidle : maxEmptyReads - (tries + 1) + 1 = maxEmptyReads - tries := by omega
        have hu' : u = ({ s with feed := rest } : Lexer).receive 0 [] := hu.symm
        rw [hidle, ← hu'] at h
        have hlt : u.pending.length < u.capacity := by
          rw [hu']
          simpa [receive] using hlen
        obtain ⟨t, ht, hst, hlater⟩ := ih hrun hlt (by omega) (by omega) (hfeed ▸ h.2)
        exact ⟨t, by simpa using ht, hsu.trans hst, hlater⟩
      · have hcountpos : 0 < bytes.length := List.length_pos_iff.2 hb
        have hne : ¬((bytes.length : Int) = 0 ∧ Ending.more = Ending.more) := by omega
        rw [if_neg hne] at h
        simp only [List.cons_append, List.nil_append, Deliver, hb, ↓reduceIte, true_and] at h
        have hgt : (0 : Int) < bytes.length := by omega
        simp only [hgt, ↓reduceIte]
        -- the refill is also logged, which nothing of `Took` looks at
        obtain ⟨⟨hpositive, hbounded, hrest⟩, hcap, hline, hleft⟩ := hsu
        exact ⟨_, rfl, ⟨⟨hpositive, hbounded, hrest⟩, hcap, hline, hleft⟩, fun _ => hfeed ▸ h⟩

theorem took_refill {s : Lexer} {later : List Delivery} (hended : s.ended = false)
    (hlen : s.pending.length < s.capacity)
    (h : Deliver 0 s.feed.bytes (s.readsRefill ++ later)) :
    ∃ t, refill s = .ok () t ∧ Took 0 s t ∧ (t.ended = false → Deliver 0 t.feed.bytes later) := by
  have hfull : ¬s.capacity ≤ s.pending.length := Nat.not_le.2 hlen
  rw [readsRefill, if_neg hfull] at h
  obtain ⟨t, ht, hst, hlater⟩ :=
    took_readMore (s := s.slide) hended hlen (by decide) (Nat.le_refl _) h
  refine ⟨t, ?_, ⟨hst.sound, hst.capacity, hst.line, hst.left⟩, hlater⟩
  simp only [refill]
  rw [if_neg (show ¬s.slide.capacity ≤ s.slide.pending.length from hfull)]
  exact ht

theorem refill_full {s : Lexer} (h : s.capacity ≤ s.pending.length) :
    refill s = .error ⟨s.line, .tokenTooLong s.capacity⟩ s.slide := by
  simp only [refill]
  rw [if_pos (show s.slide.capacity ≤ s.slide.pending.length from h)]
  rfl

/-- The length of the run at the start of `bs`, whose first byte counts whatever it is. -/
def runLength (p : UInt8 → Bool) (bs : List UInt8) : Nat := 1 + (bs.tail.takeWhile p).length

theorem runLength_append_le (p : UInt8 → Bool) (bs cs : List UInt8) :
    runLength p bs ≤ runLength p (bs ++ cs) := by
  cases bs with
  | nil => simp [runLength]
  | cons b bs =>
    simp only [runLength, List.cons_append, List.tail_cons, List.takeWhile_append]
    split
    · rename_i h
      simp only [h, List.length_append]
      omega
    · exact Nat.le_refl _

theorem runLength_append {p : UInt8 → Bool} {bs : List UInt8} (h : runLength p bs < bs.length)
    (cs : List UInt8) : runLength p (bs ++ cs) = runLength p bs := by
  cases bs with
  | nil => simp at h
  | cons b bs =>
    simp only [runLength, List.tail_cons, List.length_cons] at h
    simp only [runLength, List.cons_append, List.tail_cons, List.takeWhile_append]
    rw [if_neg (by omega)]

theorem runLength_le {p : UInt8 → Bool} {bs : List UInt8} (h : bs ≠ []) :
    runLength p bs ≤ bs.length := by
  cases bs with
  | nil => exact absurd rfl h
  | cons b bs =>
    have := (List.takeWhile_sublist (l := bs) p).length_le
    simp only [runLength, List.tail_cons, List.length_cons]
    omega

/-- Where no refill is called for, the run among the pending bytes is the whole run. -/
theorem runLength_left {p : UInt8 → Bool} {s : Lexer} (hs : s.Sound) (hne : s.left ≠ [])
    (h : ¬(s.pending.length ≤ runLength p s.pending ∧ s.ended = false)) :
    runLength p s.left = runLength p s.pending ∧ runLength p s.pending ≤ s.pending.length := by
  by_cases hlt : runLength p s.pending < s.pending.length
  · exact ⟨runLength_append hlt _, Nat.le_of_lt hlt⟩
  · have hended : s.ended = true := by
      by_contra hended
      exact h ⟨Nat.not_lt.1 hlt, by simpa using hended⟩
    have hleft : s.left = s.pending := by simp [left, hs.ended hended]
    exact ⟨by rw [hleft], runLength_le (hleft ▸ hne)⟩

theorem took_consume {s : Lexer} {n : Nat} (hs : s.Sound) (h : n ≤ s.pending.length) :
    Took n s (s.consume n) where
  sound :=
    { positive := hs.positive
      bounded := by
        have := hs.bounded
        simp only [consume, List.length_drop]
        omega
      ended := hs.ended }
  capacity := rfl
  line := rfl
  left := by simp [left, consume, List.drop_append_of_le_length h]

/-- A run is measured on all that is left, however often the buffer is refilled within it, and is
refused just when it is as long as the buffer. -/
theorem took_run {p : UInt8 → Bool} {s : Lexer} {later : List Delivery} (hs : s.Sound)
    (hne : s.left ≠ [])
    (h : s.ended = false → Deliver 0 s.feed.bytes (readsRun p s ++ later)) :
    if s.capacity ≤ runLength p s.left then
      ∃ t, run p s = .error ⟨s.line, .tokenTooLong s.capacity⟩ t
    else
      ∃ t, run p s = .ok (s.left.take (runLength p s.left)) t ∧ Took (runLength p s.left) s t ∧
        (t.ended = false → Deliver 0 t.feed.bytes later) := by
  fun_induction run p s with
  | case1 s n hn e t ht =>
    have hlong : n ≤ runLength p s.left := runLength_append_le p s.pending s.feed.bytes
    -- a refill fails only where the buffer is full, and here the run fills it
    have hfull : s.capacity ≤ s.pending.length := by
      by_contra hfull
      rw [readsRun_eq, if_pos hn, List.append_assoc] at h
      obtain ⟨u, hu, -⟩ := took_refill hn.2 (by omega) (h hn.2)
      simp [ht] at hu
    rw [refill_full hfull] at ht
    rw [if_pos (by omega)]
    simp only [EStateM.Result.error.injEq] at ht
    exact ⟨t, by rw [ht.1]⟩
  | case2 s n hn t ht ih =>
    have hroom : s.pending.length < s.capacity := by
      by_contra hroom
      simp [refill_full (Nat.not_lt.1 hroom)] at ht
    rw [readsRun_eq, if_pos hn, ht, List.append_assoc] at h
    obtain ⟨u, hu, hsu, hlater⟩ := took_refill hn.2 hroom (h hn.2)
    obtain rfl : t = u := by simpa [ht] using hu
    -- nothing is taken by a refill, so the run is measured on the same bytes
    have hleft : t.left = s.left := hsu.left
    have key := ih hsu.sound (by rwa [hleft]) hlater
    rw [hleft, hsu.capacity, hsu.line] at key
    by_cases hcap : s.capacity ≤ runLength p s.left
    · rw [if_pos hcap] at key ⊢
      exact key
    · rw [if_neg hcap] at key ⊢
      obtain ⟨v, hv, htv, hl⟩ := key
      exact ⟨v, hv, hsu.trans htv, hl⟩
  | case3 s n hn hcap =>
    have hlong : n ≤ runLength p s.left := runLength_append_le p s.pending s.feed.bytes
    rw [if_pos (by omega)]
    exact ⟨s, rfl⟩
  | case4 s n hn hcap =>
    obtain ⟨hsame, hlen⟩ := runLength_left hs hne hn
    rw [hsame, if_neg (show ¬s.capacity ≤ runLength p s.pending from hcap)]
    refine ⟨_, ?_, took_consume hs hlen, fun he => ?_⟩
    · simp only [left, List.take_append_of_le_length hlen]
      rfl
    · rw [readsRun_eq, if_neg hn] at h
      exact h he

theorem take_runLength (p : UInt8 → Bool) (b : UInt8) (bs : List UInt8) :
    (b :: bs).take (runLength p (b :: bs)) = b :: bs.takeWhile p := by
  rw [runLength, Nat.add_comm, List.take_succ_cons, List.tail_cons]
  exact congrArg (b :: ·) (List.prefix_iff_eq_take.1 (List.takeWhile_prefix p)).symm

theorem took_run_cons {p : UInt8 → Bool} {b : UInt8} {bs : List UInt8} {s : Lexer}
    {later : List Delivery} (hs : s.Sound) (hleft : s.left = b :: bs)
    (h : s.ended = false → Deliver 0 s.feed.bytes (readsRun p s ++ later)) :
    let bytes := b :: bs.takeWhile p
    if s.capacity ≤ bytes.length then ∃ t, run p s = .error ⟨s.line, .tokenTooLong s.capacity⟩ t
    else ∃ t, run p s = .ok bytes t ∧ Took bytes.length s t ∧
      (t.ended = false → Deliver 0 t.feed.bytes later) := by
  have key := took_run hs (by simp [hleft]) h
  have hlen : (b :: bs.takeWhile p).length = runLength p (b :: bs) := by
    simp [runLength, Nat.add_comm]
  simpa only [hleft, take_runLength, hlen] using key

theorem token_cut {b : UInt8} {bs : List UInt8} {s : Lexer} {later : List Delivery} (hs : s.Sound)
    (hleft : s.left = b :: bs) (hpend : s.pending ≠ [])
    (h : s.ended = false → Deliver 0 s.feed.bytes (readsToken b s ++ later)) :
    match (Munch.cut s.capacity s.line b bs).2 with
    | .error e => ∃ t, token b s = .error e t
    | .ok tok => ∃ t, token b s = .ok tok t ∧ Took (Munch.cut s.capacity s.line b bs).1.length s t ∧
        (t.ended = false → Deliver 0 t.feed.bytes later) := by
  by_cases hd : isDigit b
  · simp only [readsToken, hd, ↓reduceIte] at h
    have key := took_run_cons hs hleft h
    simp only [Munch.cut, token, number, hd, ↓reduceIte]
    by_cases hcap : s.capacity ≤ (b :: bs.takeWhile isDigit).length
    · rw [if_pos hcap] at key ⊢
      obtain ⟨t, ht⟩ := key
      exact ⟨t, by rw [ht]⟩
    · rw [if_neg hcap] at key ⊢
      obtain ⟨t, ht, hst, hlater⟩ := key
      rw [ht, Munch.number]
      by_cases hlong : Problem.maxDigits < (b :: bs.takeWhile isDigit).length
      · simp only [hlong, ↓reduceIte]
        exact ⟨t, rfl⟩
      · simp only [hlong, ↓reduceIte]
        exact ⟨t, rfl, hst, hlater⟩
  · by_cases hl : isLetter b
    · simp only [readsToken, hd, hl, ↓reduceIte, Bool.false_eq_true] at h
      have key := took_run_cons hs hleft h
      simp only [Munch.cut, token, word, hd, hl, ↓reduceIte, Bool.false_eq_true]
      by_cases hcap : s.capacity ≤ (b :: bs.takeWhile isAlnum).length
      · rw [if_pos hcap] at key ⊢
        obtain ⟨t, ht⟩ := key
        exact ⟨t, by rw [ht]⟩
      · rw [if_neg hcap] at key ⊢
        obtain ⟨t, ht, hst, hlater⟩ := key
        rw [ht, Munch.word]
        cases hk : TokenType.keyword? (ascii (b :: bs.takeWhile isAlnum)) with
        | some type => exact ⟨t, by simp only [hk], hst, hlater⟩
        | none => exact ⟨t, by simp only [hk], hst, hlater⟩
    · simp only [readsToken, hd, hl, ↓reduceIte, Bool.false_eq_true, List.nil_append] at h
      simp only [Munch.cut, token, hd, hl, ↓reduceIte, Bool.false_eq_true]
      cases hm : TokenType.mark? b with
      | none => exact ⟨s, rfl⟩
      | some type =>
        exact ⟨_, rfl, took_consume hs (List.length_pos_iff.2 hpend), h⟩

theorem skipBlanks_pending (s : Lexer) : s.skipBlanks.pending = s.pending.dropWhile isBlank := by
  have h : (s.pending.takeWhile isBlank ++ s.pending.dropWhile isBlank).drop _ = _ :=
    List.drop_left
  rwa [List.takeWhile_append_dropWhile] at h

theorem sound_skipBlanks {s : Lexer} (hs : s.Sound) : s.skipBlanks.Sound where
  positive := hs.positive
  bounded := by
    have := (List.dropWhile_sublist (l := s.pending) isBlank).length_le
    rw [skipBlanks_pending]
    exact Nat.le_trans this hs.bounded
  ended := hs.ended

theorem skipBlanks_line {s : Lexer} {before : List UInt8} (h : s.line = Munch.lineAfter before) :
    s.skipBlanks.line = Munch.lineAfter (before ++ s.pending.takeWhile isBlank) := by
  simp only [skipBlanks, h, Munch.lineAfter, List.count_append]
  omega

theorem blanks_within {s : Lexer} {b : UInt8} {rest : List UInt8}
    (h : s.skipBlanks.pending = b :: rest) :
    s.left.takeWhile isBlank = s.pending.takeWhile isBlank ∧
      s.left.dropWhile isBlank = b :: (rest ++ s.feed.bytes) := by
  rw [skipBlanks_pending] at h
  constructor
  · have hall := List.takeWhile_append_dropWhile (p := isBlank) (l := s.pending)
    have hlen := congrArg List.length hall
    rw [h, List.length_append, List.length_cons] at hlen
    rw [left, List.takeWhile_append, if_neg (by omega)]
  · simp [left, List.dropWhile_append, h]

theorem blanks_beyond {s : Lexer} (h : s.skipBlanks.pending = []) :
    s.pending.takeWhile isBlank = s.pending ∧
      s.left.takeWhile isBlank = s.pending ++ s.feed.bytes.takeWhile isBlank ∧
      s.left.dropWhile isBlank = s.feed.bytes.dropWhile isBlank := by
  rw [skipBlanks_pending] at h
  have hall : s.pending.takeWhile isBlank = s.pending := by
    have := List.takeWhile_append_dropWhile (p := isBlank) (l := s.pending)
    rwa [h, List.append_nil] at this
  refine ⟨hall, ?_, ?_⟩
  · rw [left, List.takeWhile_append, if_pos (by rw [hall])]
  · simp [left, List.dropWhile_append, h]

/-- The next token is the first one after the blanks, also where they go on past the buffer. -/
theorem next_cut {s : Lexer} {before : List UInt8} {later : List Delivery} (hs : s.Sound)
    (hline : s.line = Munch.lineAfter before)
    (h : s.ended = false → Deliver 0 s.feed.bytes (readsNext s ++ later)) :
    match s.left.dropWhile isBlank with
    | [] => ∃ tok t, next s = .ok tok t ∧ tok.type = .eof
    | b :: bs =>
      let line := Munch.lineAfter (before ++ s.left.takeWhile isBlank)
      match (Munch.cut s.capacity line b bs).2 with
      | .error e => ∃ t, next s = .error e t
      | .ok tok => ∃ t, next s = .ok tok t ∧ t.Sound ∧ t.capacity = s.capacity ∧ t.line = line ∧
          t.left = (b :: bs).drop (Munch.cut s.capacity line b bs).1.length ∧
          (t.ended = false → Deliver 0 t.feed.bytes later) := by
  fun_induction next s generalizing before with
  | case1 s b rest hp =>
    obtain ⟨htake, hstop⟩ := blanks_within hp
    have hskip := skipBlanks_line hline
    rw [← htake] at hskip
    rw [readsNext_eq, hp] at h
    have hcont : s.skipBlanks.left = b :: (rest ++ s.feed.bytes) := by
      simp only [left, hp]
      rfl
    have key := token_cut (sound_skipBlanks hs) hcont (by simp [hp]) h
    rw [hskip] at key
    rw [hstop]
    change match (Munch.cut s.capacity _ b (rest ++ s.feed.bytes)).2 with
      | .error e => _
      | .ok tok => _ at key
    cases hcut : (Munch.cut s.capacity
      (Munch.lineAfter (before ++ s.left.takeWhile isBlank)) b (rest ++ s.feed.bytes)).2 with
    | error e => simpa only [hcut] using key
    | ok tok =>
      simp only [hcut] at key ⊢
      obtain ⟨t, ht, hst, hlater⟩ := key
      refine ⟨t, ht, hst.sound, hst.capacity, hst.line.trans hskip, ?_, hlater⟩
      rw [hst.left]
      simp only [left, hp]
      rfl
  | case2 s hp hended =>
    have hnil : s.feed.bytes = [] := hs.ended hended
    have hstop : s.left.dropWhile isBlank = [] := by
      rw [(blanks_beyond hp).2.2, hnil, List.dropWhile_nil]
    rw [hstop]
    exact ⟨_, _, rfl, rfl⟩
  | case3 s hp hended e t ht =>
    -- the buffer is empty, so the refill has room and does not fail
    have hrun : s.skipBlanks.ended = false := by simpa using hended
    have hroom : s.skipBlanks.pending.length < s.skipBlanks.capacity := by
      rw [hp]
      exact hs.positive
    rw [readsNext_eq, hp] at h
    simp only [if_neg hended, ht, List.append_nil] at h
    obtain ⟨u, hu, -⟩ := took_refill hrun hroom (h hrun)
    simp [ht] at hu
  | case4 s hp hended u hu ih =>
    have hrun : s.skipBlanks.ended = false := by simpa using hended
    have hroom : s.skipBlanks.pending.length < s.skipBlanks.capacity := by
      rw [hp]
      exact hs.positive
    rw [readsNext_eq, hp] at h
    simp only [if_neg hended, hu, List.append_assoc] at h
    obtain ⟨v, hv, hsv, hlater⟩ := took_refill hrun hroom (h hrun)
    obtain rfl : u = v := by simpa [hu] using hv
    obtain ⟨hall, htake, hdrop⟩ := blanks_beyond hp
    have hleft : u.left = s.feed.bytes := by
      rw [hsv.left, left, hp]
      rfl
    have hskip : u.line = Munch.lineAfter (before ++ s.pending) := by
      rw [hsv.line, skipBlanks_line hline, hall]
    -- the blanks so far count as read, and the rest of them follows by induction
    have key := ih hsv.sound hskip hlater
    have hcap : u.capacity = s.capacity := hsv.capacity
    rw [hcap, hleft, List.append_assoc, ← htake, ← hdrop] at key
    exact key

theorem count_newline_run {p : UInt8 → Bool} (hp : p 10 = false) {b : UInt8} (hb : b ≠ 10)
    (bs : List UInt8) : (b :: bs.takeWhile p).count 10 = 0 := by
  rw [List.count_eq_zero, List.mem_cons, not_or]
  refine ⟨fun h => hb h.symm, fun h => ?_⟩
  simp [List.mem_takeWhile_imp h] at hp

theorem lineAfter_append_cut (limit line : Nat) {b : UInt8} (hb : isBlank b = false)
    (before bs : List UInt8) :
    Munch.lineAfter (before ++ (Munch.cut limit line b bs).1) = Munch.lineAfter before := by
  have hne : b ≠ 10 := by
    rintro rfl
    simp [isBlank] at hb
  have hcount : (Munch.cut limit line b bs).1.count 10 = 0 := by
    unfold Munch.cut
    split_ifs
    · exact count_newline_run (by decide) hne bs
    · exact count_newline_run (by decide) hne bs
    · exact List.count_eq_zero.2 (by simpa using hne.symm)
  simp [Munch.lineAfter, hcount]

end Lexer

theorem Munch.lex_skip (limit : Nat) (before rest : List UInt8) :
    lex limit before rest =
      lex limit (before ++ rest.takeWhile Lexer.isBlank) (rest.dropWhile Lexer.isBlank) := by
  induction rest generalizing before with
  | nil => simp
  | cons b bs ih =>
    by_cases hb : Lexer.isBlank b
    · rw [lex, if_pos hb, ih]
      simp [hb]
    · simp [hb]

theorem TokenType.keyword?_ne_eof (w : String) : TokenType.keyword? w ≠ some .eof := by
  unfold TokenType.keyword?
  split <;> simp

theorem TokenType.mark?_ne_eof (b : UInt8) : TokenType.mark? b ≠ some .eof := by
  unfold TokenType.mark?
  split <;> simp

theorem Munch.cut_type_ne_eof {limit line : Nat} {b : UInt8} {bs : List UInt8} {tok : Token}
    (h : (cut limit line b bs).2 = .ok tok) : tok.type ≠ .eof := by
  intro heof
  have hkey := TokenType.keyword?_ne_eof (Lexer.ascii (b :: bs.takeWhile Lexer.isAlnum))
  have hmark := TokenType.mark?_ne_eof b
  unfold cut number word at h
  grind

theorem Munch.lex_cut (limit : Nat) (before bs : List UInt8) {b : UInt8}
    (hb : Lexer.isBlank b = false) :
    lex limit before (b :: bs) =
      match (cut limit (lineAfter before) b bs).2 with
      | .error e => ([], some e)
      | .ok tok =>
        let piece := (cut limit (lineAfter before) b bs).1
        let more := lex limit (before ++ piece) ((b :: bs).drop piece.length)
        (tok :: more.1, more.2) := by
  rw [lex]
  exact if_neg (by simp [hb])

namespace Lexer

/-- What the next token is, said by the whole-string lexer. -/
theorem next_lex {s : Lexer} {before : List UInt8} {later : List Delivery} (hs : s.Sound)
    (hline : s.line = Munch.lineAfter before)
    (h : s.ended = false → Deliver 0 s.feed.bytes (readsNext s ++ later)) :
    (∃ tok t, next s = .ok tok t ∧ tok.type = .eof ∧
      Munch.lex s.capacity before s.left = ([], none)) ∨
    (∃ e t, next s = .error e t ∧ Munch.lex s.capacity before s.left = ([], some e)) ∨
    ∃ tok t before', next s = .ok tok t ∧ tok.type ≠ .eof ∧ t.Sound ∧
      t.line = Munch.lineAfter before' ∧ (t.ended = false → Deliver 0 t.feed.bytes later) ∧
      Munch.lex s.capacity before s.left =
        (tok :: (Munch.lex t.capacity before' t.left).1,
          (Munch.lex t.capacity before' t.left).2) := by
  have key := next_cut hs hline h
  rw [Munch.lex_skip]
  cases hd : s.left.dropWhile isBlank with
  | nil =>
    simp only [hd] at key
    obtain ⟨tok, t, ht, htok⟩ := key
    exact .inl ⟨tok, t, ht, htok, by rw [Munch.lex]⟩
  | cons b bs =>
    have hb : isBlank b = false := by simpa [hd] using List.head?_dropWhile_not isBlank s.left
    rw [Munch.lex_cut _ _ _ hb]
    simp only [hd] at key
    split at key <;> rename_i hcut
    · obtain ⟨t, ht⟩ := key
      exact .inr (.inl ⟨_, t, ht, rfl⟩)
    · obtain ⟨t, ht, hsound, hcap, htline, hleft, hlater⟩ := key
      refine .inr (.inr ⟨_, t, _, ht, Munch.cut_type_ne_eof hcut, hsound,
        htline.trans (lineAfter_append_cut s.capacity
          (Munch.lineAfter (before ++ s.left.takeWhile isBlank)) hb _ bs).symm, hlater, ?_⟩)
      rw [hcap, hleft]

/-- From any state on, the lexer finds the tokens and the error of the bytes that are left. -/
theorem tokens_eq_lex {s : Lexer} {before : List UInt8} (hs : s.Sound)
    (hline : s.line = Munch.lineAfter before)
    (h : s.ended = false → Deliver 0 s.feed.bytes (readsTokens s)) :
    s.tokens.1 = (Munch.lex s.capacity before s.left).1 ∧
      match (Munch.lex s.capacity before s.left).2 with
      | none => ∃ t, s.tokens.2 = .ok () t
      | some e => ∃ t, s.tokens.2 = .error e t := by
  fun_induction tokens s generalizing before with
  | case1 s e t ht =>
    rw [readsTokens_eq, ht] at h
    -- one of the three outcomes is the one at hand, and the others contradict it
    rcases next_lex hs hline h with ⟨_, _, hn, _⟩ | ⟨e', _, hn, hlex⟩ | ⟨_, _, _, hn, _⟩
    · simp [ht] at hn
    · obtain ⟨rfl, -⟩ : e = e' ∧ _ := by simpa [ht] using hn
      rw [hlex]
      exact ⟨rfl, t, rfl⟩
    · simp [ht] at hn
  | case2 s tok t ht heof =>
    rw [readsTokens_eq, ht] at h
    rcases next_lex hs hline h with
      ⟨_, _, hn, _, hlex⟩ | ⟨_, _, hn, _⟩ | ⟨tok', _, _, hn, hne, _⟩
    · rw [hlex]
      exact ⟨rfl, t, rfl⟩
    · simp [ht] at hn
    · obtain ⟨rfl, -⟩ : tok = tok' ∧ _ := by simpa [ht] using hn
      exact absurd heof hne
  | case3 s tok t ht hne rest =>
    rename_i ih
    rw [readsTokens_eq, ht] at h
    simp only [if_neg hne] at h
    rcases next_lex hs hline h with
      ⟨tok', _, hn, heof, _⟩ | ⟨_, _, hn, _⟩ | ⟨tok', t', _, hn, _, hsound, htline, hlater, hlex⟩
    · obtain ⟨rfl, -⟩ : tok = tok' ∧ _ := by simpa [ht] using hn
      exact absurd heof hne
    · simp [ht] at hn
    · obtain ⟨rfl, rfl⟩ : tok = tok' ∧ t = t' := by simpa [ht] using hn
      obtain ⟨htoks, hend⟩ := ih hsound htline hlater
      rw [hlex]
      exact ⟨congrArg (tok :: ·) htoks, hend⟩

end Lexer

def deliveries (feed : Feed) (size : Option Int) : List Delivery :=
  (Lexer.start feed size).readsTokens

/-- The bytes of a feed are lexed alike however the reads deliver them, through a buffer of any
size: only the bytes count, and the capacity as a limit on the length of a run. -/
theorem tokenize_eq_lex (feed : Feed) (size : Option Int)
    (h : Lexer.Deliver 0 feed.bytes (deliveries feed size)) :
    ((tokenize feed size).tokens, (tokenize feed size).error) =
      Munch.lex (Lexer.capacityOf size) [] feed.bytes := by
  have hs : (Lexer.start feed size).Sound :=
    { positive := by
        show 0 < Lexer.capacityOf size
        unfold Lexer.capacityOf Lexer.minCapacity Lexer.defaultCapacity
        split <;> omega
      bounded := Nat.zero_le _
      ended := fun he => by simp [Lexer.start] at he }
  have hline : (Lexer.start feed size).line = Munch.lineAfter [] := rfl
  obtain ⟨htoks, hend⟩ := Lexer.tokens_eq_lex hs hline fun _ => h
  change _ = (Munch.lex (Lexer.capacityOf size) [] feed.bytes).1 at htoks
  change match (Munch.lex (Lexer.capacityOf size) [] feed.bytes).2 with | none => _ | some e => _
    at hend
  generalize Munch.lex (Lexer.capacityOf size) [] feed.bytes = lexed at htoks hend ⊢
  obtain ⟨toks, error⟩ := lexed
  unfold tokenize
  cases error with
  | none =>
    obtain ⟨t, ht⟩ := hend
    rw [← Prod.mk.eta (p := (Lexer.start feed size).tokens), htoks, ht]
  | some e =>
    obtain ⟨t, ht⟩ := hend
    rw [← Prod.mk.eta (p := (Lexer.start feed size).tokens), htoks, ht]

/-- A word, a line end and a number that straddle the reads into a buffer of three bytes; the end
of the input comes with the last two. -/
def straddling : Feed where
  bytes := [97, 98, 10, 55, 59]
  script := [.deliver 1 .more, .deliver 0 .more, .deliver 2 .more, .claim 0,
    .deliver 9 .endOfInput]

theorem tokenize_eq_lex_straddling :
    Lexer.Deliver 0 straddling.bytes (deliveries straddling (some 3)) ∧
      ((tokenize straddling (some 3)).tokens, (tokenize straddling (some 3)).error) =
        Munch.lex 3 [] [97, 98, 10, 55, 59] := by
  have h : Lexer.Deliver 0 straddling.bytes (deliveries straddling (some 3)) := by
    simp [deliveries, straddling, Lexer.start, Lexer.capacityOf, Lexer.minCapacity,
      Lexer.readsTokens_eq, Lexer.readsNext_eq, Lexer.readsToken, Lexer.readsRun_eq,
      Lexer.readsRefill, Lexer.readsMore, Lexer.next_eq, Lexer.token, Lexer.number, Lexer.word,
      Lexer.run_eq, Lexer.refill, Lexer.readMore, Lexer.skipBlanks, Lexer.consume, Lexer.slide,
      Lexer.receive, Lexer.room, Lexer.maxEmptyReads, Lexer.isBlank, Lexer.isDigit,
      Lexer.isLetter, Lexer.isAlnum, Lexer.ascii, Lexer.Deliver, Feed.read, TokenType.mark?,
      TokenType.keyword?, Problem.maxDigits, List.takeWhile]
  exact ⟨h, tokenize_eq_lex straddling (some 3) h⟩

end OnePass
