import Lz4.Encoder.Bounds
import Lz4.Format.Factor

/-!
# The matches are real

The compressor refers to a text: some history, of which it can reach the last part, and
the input.  Positions of the text are counted like pointers into the input, so that a
history in another buffer only shows in where a byte stands (`Env.address`).

A hash table may contain entries from earlier calls.  `Admissible` says what is needed of
them: those that pass the tests of the search lie in the part of the history that is within
reach.  Everything that is found is then a repetition of the text (`Genuine`), and stays one
while the match is extended backwards and measured.
-/

namespace Lz4.Encoder

open FlatMemory

/-! ## The text -/

/-- The size of the history. -/
def Env.depth (e : Env) : Nat := if e.dictDirective = .noDict then 0 else e.dictSize

/-- How far a match may reach in front of the input. -/
def Env.reach (e : Env) : Nat := min e.depth 65535

theorem Env.depth_of_extMem {e : Env} (hext : e.maybeExtMem = true) : e.depth = e.dictSize := by
  unfold Env.depth
  rw [if_neg]
  intro hnone
  simp [Env.maybeExtMem, hnone] at hext

theorem Env.reach_le_depth (e : Env) : e.reach ≤ e.depth := Nat.min_le_left _ _

/-- Where the byte of the position `v` stands. -/
def Env.address (e : Env) (v : Int) : Int :=
  if e.maybeExtMem ∧ v < e.source then e.dictEnd - (e.source - v) else v

/-- The position of the text, of which `k` bytes precede the input. -/
def Env.pos (e : Env) (k : Nat) (v : Int) : Nat := (k + (v - e.source)).toNat

/-- Memory contains the input and the part of the history that can be reached. -/
structure Shows (e : Env) (text : List UInt8) (k : Nat) (m : Mem) : Prop where
  length_eq : text.length = k + e.inputSize
  reach_le : e.reach ≤ k
  byte : ∀ v, e.source - e.reach ≤ v → v < e.iend → m (e.address v) = text.getD (e.pos k v) 0

/-- The destination is apart from everything that is read. -/
structure Env.Apart (e : Env) (cap : Int) : Prop where
  input : e.iend ≤ e.dest ∨ e.dest + cap ≤ e.source
  behind : ∀ v, e.source - e.reach ≤ v → v < e.source →
    e.address v < e.dest ∨ e.dest + cap ≤ e.address v

variable {v : Int} {i n j : Nat}

section

variable {e : Env} {text : List UInt8} {k : Nat} {m m₀ : Mem} {cap : Int}

theorem Env.address_of_ge (hv : e.source ≤ v) : e.address v = v := by
  unfold Env.address
  rw [if_neg (by omega)]

theorem Env.address_of_direct (hext : e.maybeExtMem = false) : e.address v = v := by
  unfold Env.address
  rw [if_neg (by simp [hext])]

theorem Env.address_of_lt (hext : e.maybeExtMem = true) (hv : v < e.source) :
    e.address v = e.dictEnd - (e.source - v) := by
  unfold Env.address
  rw [if_pos ⟨hext, hv⟩]

theorem Shows.input (hshows : Shows e text k m) (hlow : e.source ≤ v) (hhigh : v < e.iend) :
    m v = text.getD (e.pos k v) 0 := by
  have := hshows.byte v (by omega) hhigh
  rwa [Env.address_of_ge hlow] at this

/-- Writing to the destination does not change the text. -/
theorem Shows.frame (hshows : Shows e text k m₀) (apart : e.Apart cap) {h : Heap}
    (hlog : h.Logged (Within e.dest (e.dest + cap)) m₀) : Shows e text k h.mem where
  length_eq := hshows.length_eq
  reach_le := hshows.reach_le
  byte v hlow hhigh := by
    rw [← hshows.byte v hlow hhigh]
    refine frame_of_within hlog ?_
    by_cases hv : e.source ≤ v
    · have := apart.input
      rw [Env.address_of_ge hv]
      omega
    · exact apart.behind v hlow (by omega)

theorem Shows.bytes_eq (hshows : Shows e text k m) {anchor : Int} (hlow : e.source ≤ anchor)
    (hhigh : anchor + n ≤ e.iend) : m.bytes anchor n = (text.drop (e.pos k anchor)).take n := by
  have hlength := hshows.length_eq
  have hiend : e.iend = e.source + e.inputSize := rfl
  have hpos : e.pos k anchor + n ≤ text.length := by
    unfold Env.pos
    omega
  have hlits := Factors.length_literals hpos
  have hbytes : m.bytes anchor ((text.drop (e.pos k anchor)).take n).length =
      (text.drop (e.pos k anchor)).take n := by
    refine Mem.bytes_eq_of_forall fun i hi => ?_
    rw [hlits] at hi
    rw [hshows.input (by omega) (by omega), List.getD_eq_getElem?_getD,
      List.getD_eq_getElem?_getD, List.getElem?_take_of_lt hi, List.getElem?_drop]
    congr 2
    unfold Env.pos
    omega
  rwa [hlits] at hbytes

/-! ## Where a match stands -/

/-- The pointers of a match at the distance `dist`.  A match in another buffer has to have
its first `len` bytes there. -/
inductive Located (e : Env) (ip matchPtr lowLimit : Int) (dist len : Nat) : Prop
  | inside (hlow : ¬ (e.maybeExtMem = true ∧ lowLimit = e.dictionary))
      (hlimit : lowLimit = e.source - if e.maybeExtMem then 0 else (e.depth : Int))
      (hptr : matchPtr = ip - dist) (hle : lowLimit ≤ matchPtr)
      (hreach : e.source - e.reach ≤ ip - dist)
  | outside (hext : e.maybeExtMem = true) (hlow : lowLimit = e.dictionary)
      (hptr : matchPtr = e.dictEnd - (e.source - (ip - dist)))
      (hle : e.source - e.reach ≤ ip - dist) (hlen : ip - dist + len ≤ e.source)

variable {ip matchPtr lowLimit : Int} {dist len : Nat}

section

variable (located : Located e ip matchPtr lowLimit dist len)

include located

theorem Located.reach : e.source - e.reach ≤ ip - dist := by
  cases located with
  | inside _ _ _ _ hreach => exact hreach
  | outside _ _ _ hle _ => exact hle

theorem Located.address (hi : i < len) : e.address (ip - dist + i) = matchPtr + i := by
  cases located with
  | inside _ hlimit hptr hle _ =>
    by_cases hext : e.maybeExtMem = true
    · rw [if_pos hext] at hlimit
      rw [Env.address_of_ge (by omega)]
      omega
    · rw [Env.address_of_direct (by simpa using hext)]
      omega
  | outside hext _ hptr _ hlen =>
    rw [Env.address_of_lt hext (by omega)]
    omega

theorem Located.lowLimit_le (hdict : e.dictEnd = e.dictionary + e.dictSize) : lowLimit ≤ matchPtr :=
    by
  cases located with
  | inside _ _ _ hle _ => exact hle
  | outside hext hlow hptr hle hlen =>
    have := Env.depth_of_extMem hext
    have := Env.reach_le_depth e
    omega

/-- Going back by `j` bytes, but not beyond the limit. -/
theorem Located.back (hdict : e.dictEnd = e.dictionary + e.dictSize) (hdist : dist ≤ 65535)
    (hip : e.source ≤ ip - j) (hj : lowLimit ≤ matchPtr - j) :
    Located e (ip - j) (matchPtr - j) lowLimit dist (len + j) := by
  cases located with
  | inside hlow hlimit hptr hle hreach =>
    refine .inside hlow hlimit (by omega) hj ?_
    unfold Env.reach
    split at hlimit
    · omega
    · omega
  | outside hext hlow hptr hle hlen =>
    have hdepth := Env.depth_of_extMem hext
    refine .outside hext hlow (by omega) ?_ (by omega)
    unfold Env.reach
    omega

/-- The bytes of a match are those of the text. -/
theorem Located.byte (hshows : Shows e text k m) (hi : i < len) (hend : ip + i - dist < e.iend) :
    m (matchPtr + i) = text.getD (e.pos k (ip - dist + i)) 0 := by
  have := located.reach
  rw [← located.address hi]
  exact hshows.byte _ (by omega) (by omega)

theorem Located.repeats (hshows : Shows e text k m) (hdist : 1 ≤ dist) (hip : e.source ≤ ip)
    (hend : ip + len ≤ e.iend) (heq : ∀ i : Nat, i < len → m (ip + i) = m (matchPtr + i)) :
    Repeats text (e.pos k ip) dist len where
  offset_pos := hdist
  offset_le := by
    have := located.reach
    have := hshows.reach_le
    unfold Env.pos
    omega
  length_le := by
    have := hshows.length_eq
    have hiend : e.iend = e.source + e.inputSize := rfl
    unfold Env.pos
    omega
  eq i hi := by
    have hbyte := heq i hi
    rw [located.byte hshows hi (by omega), hshows.input (by omega) (by omega)] at hbyte
    rw [show e.pos k ip + i = e.pos k (ip + i) by unfold Env.pos; omega, hbyte]
    congr 1
    unfold Env.pos
    omega

theorem Located.eq_of_repeats (hshows : Shows e text k m) (hdist : 1 ≤ dist) (hip : e.source ≤ ip)
    (hend : ip + len ≤ e.iend) (hrep : Repeats text (e.pos k ip) dist len) (hi : i < len) :
    m (ip + i) = m (matchPtr + i) := by
  have hbyte := hrep.eq i hi
  rw [located.byte hshows hi (by omega), hshows.input (by omega) (by omega),
    show e.pos k (ip + i) = e.pos k ip + i by unfold Env.pos; omega, hbyte]
  congr 1
  unfold Env.pos
  omega

end

/-! ## Genuine matches -/

/-- The match repeats the text at the distance that is written for it. -/
structure Genuine (e : Env) (text : List UInt8) (k : Nat) (found : Found) (dist len : Nat) :
    Prop where
  located : Located e found.ip found.matchPtr found.lowLimit dist len
  repeats : Repeats text (e.pos k found.ip) dist len
  dist_le : dist ≤ 65535
  written : found.written e = dist
  ip_ge : e.source ≤ found.ip
  len_ge : 4 ≤ len
  end_le : found.ip + len ≤ e.matchlimit

variable {found : Found}

/-- Bytes in front of a match that agree belong to it. -/
theorem Genuine.back (genuine : Genuine e text k found dist len) (hshows : Shows e text k m)
    (hdict : e.dictEnd = e.dictionary + e.dictSize) (hip : e.source ≤ found.ip - j)
    (hlow : found.lowLimit ≤ found.matchPtr - j)
    (heq : ∀ i : Nat, i < j → m (found.ip - j + i) = m (found.matchPtr - j + i)) :
    Genuine e text k { found with ip := found.ip - j, matchPtr :=
      found.matchPtr - j } dist (len + j) := by
  have hend := genuine.end_le
  have hmatchlimit : e.matchlimit = e.iend - 5 := rfl
  have hpos := genuine.repeats.offset_pos
  have located := genuine.located.back hdict genuine.dist_le hip hlow
  refine ⟨located, ?_, genuine.dist_le, ?_, hip, ?_, ?_⟩
  · refine located.repeats hshows hpos hip (by push_cast; omega) fun i hi => ?_
    by_cases hfront : i < j
    · exact heq i hfront
    · have hold := genuine.located.eq_of_repeats hshows hpos genuine.ip_ge (by omega)
        genuine.repeats (show i - j < len by omega)
      have hcast : ((i - j : Nat) : Int) = i - j := by omega
      rw [hcast] at hold
      rw [show found.ip - (j : Int) + i = found.ip + (i - j) by omega,
        show found.matchPtr - (j : Int) + i = found.matchPtr + (i - j) by omega]
      exact hold
  · have hwritten := genuine.written
    unfold Found.written at hwritten ⊢
    rw [show found.ip - (j : Int) - (found.matchPtr - j) = found.ip - found.matchPtr by omega]
    exact hwritten
  · have := genuine.len_ge
    omega
  · push_cast
    omega

/-- The bytes compared when a match is measured, four of which were equal before. -/
theorem eq_of_agrees {p q limit : Int} (h : Agrees m (p + 4) (q + 4) limit n)
    (hfour : ∀ i : Nat, i < 4 → m (p + i) = m (q + i)) (hi : i < 4 + n) :
    m (p + i) = m (q + i) := by
  by_cases hfront : i < 4
  · exact hfour i hfront
  · have hcast : ((i - 4 : Nat) : Int) = i - 4 := by omega
    have hnew := h.eq (i - 4) (by omega)
    rw [hcast] at hnew
    rw [show p + (i : Int) = p + 4 + (i - 4) by omega, show q + (i : Int) = q + 4 + (i - 4) by omega]
    exact hnew

/-- All of what is measured repeats the text, and what was known before is part of it. -/
theorem Genuine.measureMatch (genuine : Genuine e text k found dist len)
    (hshows : Shows e text k m) :
    Repeats text (e.pos k found.ip) dist (4 + (measureMatch e m found).1) ∧
      len ≤ 4 + (Encoder.measureMatch e m found).1 := by
  obtain ⟨located, hrep, -, -, hip, hlen, hend⟩ := genuine
  have hmatchlimit : e.matchlimit = e.iend - 5 := rfl
  have hpos := hrep.offset_pos
  have hold (i : Nat) (hi : i < len) : m (found.ip + i) = m (found.matchPtr + i) :=
    located.eq_of_repeats hshows hpos hip (by omega) hrep hi
  have hrest (i : Nat) (hi : i < len - 4) :
      m (found.ip + 4 + i) = m (found.matchPtr + 4 + i) := by
    have := hold (4 + i) (by omega)
    push_cast at this
    rwa [← Int.add_assoc, ← Int.add_assoc] at this
  have hfour (i : Nat) (hi : i < 4) := hold i (by omega)
  have hstep := stepSize_cases e
  unfold Encoder.measureMatch
  cases located with
  | inside hlow hlimit hptr hle hreach =>
    rw [if_neg hlow]
    dsimp only
    have hcount := count_spec hstep m (found.ip + 4) (found.matchPtr + 4) e.matchlimit
    set n := count e.stepSize m (found.ip + 4) (found.matchPtr + 4) e.matchlimit
    have hle' := hcount.le
    have hgrown := hcount.ge hrest (by omega)
    refine ⟨?_, by omega⟩
    exact (Located.inside hlow hlimit hptr hle hreach).repeats hshows hpos hip (by push_cast; omega)
      fun i hi => eq_of_agrees hcount hfour hi
  | outside hext hlow hptr hle hfit =>
    rw [if_pos ⟨hext, hlow⟩]
    dsimp only
    set limit := min (found.ip + (e.dictEnd - found.matchPtr)) e.matchlimit with hlimit
    have hcount := count_spec hstep m (found.ip + 4) (found.matchPtr + 4) limit
    set n := count e.stepSize m (found.ip + 4) (found.matchPtr + 4) limit
    have hle' := hcount.le
    have hgrown := hcount.ge hrest (by omega)
    have hfirst : Repeats text (e.pos k found.ip) dist (4 + n) :=
      (Located.outside hext hlow hptr hle (by push_cast; omega)).repeats hshows hpos hip
        (by push_cast; omega) fun i hi => eq_of_agrees hcount hfour hi
    split
    · -- the match goes on at the start of the input
      rename_i hall
      have hmore := count_spec hstep m limit e.source e.matchlimit
      set more := count e.stepSize m limit e.source e.matchlimit
      have hle'' := hmore.le
      refine ⟨⟨hpos, hfirst.offset_le, ?_, fun i hi => ?_⟩, by dsimp only; omega⟩
      · have := hshows.length_eq
        have hiend : e.iend = e.source + e.inputSize := rfl
        unfold Env.pos
        dsimp only
        omega
      · dsimp only at hi
        by_cases hold : i < 4 + n
        · exact hfirst.eq i hold
        · have heq := hmore.eq (i - (4 + n)) (by omega)
          have hcast : ((i - (4 + n) : Nat) : Int) = i - (4 + n) := by omega
          have hreach := hshows.reach_le
          rw [hcast, hshows.input (by omega) (by omega), hshows.input (by omega) (by omega)] at heq
          rw [show e.pos k found.ip + i = e.pos k (limit + (i - (4 + n))) by
            unfold Env.pos; omega, heq]
          congr 1
          unfold Env.pos
          omega
    · exact ⟨hfirst, by dsimp only; omega⟩

end

end Lz4.Encoder
