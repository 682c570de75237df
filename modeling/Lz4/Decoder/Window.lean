import Lz4.Decoder.Bounds
import Lz4.Format.Block

/-!
# The decoder's memory as a list of bytes

The reference interpretation works on one list, history first.  In memory that
list is spread out: the current block and its prefix are contiguous, the bytes
before the prefix live in an external dictionary, and only the last 65535 of
them have to be there at all.  `Rel` relates the two, and the lemmas below say
what a run of literals and a match must have done to memory for `Rel` to hold
of the longer list.

A copy helper writes more than it should, so every lemma takes the address
`limit` below which all writes stayed.  The excess must hit neither input that
is still to be read nor history that is still in reach.  For separate buffers
both are obvious, but the relation is also used for decoding in place and in
ring buffers, where they are the whole argument; they are therefore stated as
`Env.SourceClear` and `Env.HistoryClear`.
-/

namespace Lz4.Decoder

open FlatMemory

/-- The list `buf` laid out from the address `base` on. -/
def contents (base : Int) (buf : List UInt8) : Mem :=
  fun v => buf.getD (v - base).toNat 0

variable {buf : List UInt8} {v base : Int}

theorem contents_append (more : List UInt8) (hv : v < base + buf.length) (hlow : base ≤ v) :
    contents base (buf ++ more) v = contents base buf v :=
  List.getD_append _ _ _ _ (by omega)

theorem contents_append_right {more : List UInt8} (hv : base + buf.length ≤ v) :
    contents base (buf ++ more) v = contents (base + buf.length) more v := by
  unfold contents
  rw [List.getD_append_right _ _ _ _ (by omega)]
  congr 1
  omega

variable {m : Mem} {n : Nat} {a : Int}

theorem contents_bytes (hlow : base ≤ v) (hhigh : v < base + n) :
    contents base (m.bytes a n) v = m (a + (v - base)) := by
  unfold contents
  rw [Mem.getD_bytes m a (by omega)]
  congr 1
  omega

theorem bytes_eq_of_contents {bs : List UInt8}
    (h : ∀ v, base ≤ v → v < base + bs.length → m v = contents base bs v) :
    m.bytes base bs.length = bs := by
  refine Mem.bytes_eq_of_forall fun i hi => ?_
  rw [h _ (by omega) (by omega), contents]
  congr 1
  omega

namespace Env

/-- Where the byte with the address `v` in the contiguous picture really is. -/
def phys (e : Env) (v : Int) : Int :=
  if v < e.lowPrefix then e.dictEnd - (e.lowPrefix - v) else v

variable {e : Env}

theorem phys_of_le (h : e.lowPrefix ≤ v) : e.phys v = v := by
  simp [phys, Int.not_lt.mpr h]

theorem phys_of_lt (h : v < e.lowPrefix) : e.phys v = e.dictEnd - (e.lowPrefix - v) := by
  simp [phys, h]

/-- The call is set up for a history of `n` bytes: prefix and dictionary together
hold it, at least as far as an offset can reach. -/
structure Serves (e : Env) (n : Nat) : Prop extends e.Placed where
  full : e.partialDecoding = false
  reach : max (e.dst - n) (e.dst - 65535) = max (e.lowPrefix - e.dictSize) (e.dst - 65535)

/-- No write below `op + slack` reaches history still within 65535 bytes of `op`. -/
def HistoryClear (e : Env) (n : Nat) (slack : Int) : Prop :=
  ∀ v op, e.dst - n ≤ v → v < e.lowPrefix → e.dst ≤ op → op ≤ e.oend → op - 65535 ≤ v →
    e.phys v < e.dst ∨ e.oend ≤ e.phys v ∨ op + slack ≤ e.phys v

/-- The input is a buffer of its own. -/
def Separate (e : Env) : Prop := e.iend ≤ e.dst ∨ e.oend ≤ e.src

end Env

/-- Memory at a point between two copies: the input from `ip` on is still that of
`source`, and `buf`, which starts with `n` bytes of history, ends at `op`.  The
part of it produced by this call is intact, and so is what a match can reach. -/
structure Rel (e : Env) (source : Mem) (n : Nat) (buf : List UInt8) (m : Mem) (ip op : Int) :
    Prop where
  input : ∀ a, ip ≤ a → a < e.iend → m a = source a
  pos : op = e.dst - n + buf.length
  le_pos : e.dst ≤ op
  window : ∀ v, e.dst - n ≤ v → op - 65535 ≤ v → v < op →
    m (e.phys v) = contents (e.dst - n) buf v
  output : ∀ v, e.dst ≤ v → v < op → m v = contents (e.dst - n) buf v

variable {source : Mem} {ip op : Int}

/-- Reading on does not touch memory. -/
theorem Rel.advance {e : Env} {ip' : Int} (rel : Rel e source n buf m ip op) (hip : ip ≤ ip') :
    Rel e source n buf m ip' op :=
  { rel with input := fun a hlow hhigh => rel.input a (by omega) hhigh }

/-- The output written so far, as a list. -/
theorem Rel.bytes_output {e : Env} (rel : Rel e source n buf m ip op) :
    m.bytes e.dst (op - e.dst).toNat = buf.drop n := by
  have hpos := rel.pos
  have hlength : (op - e.dst).toNat = (buf.drop n).length := by
    rw [List.length_drop]
    omega
  rw [hlength]
  refine bytes_eq_of_contents fun v hlow hhigh => ?_
  rw [rel.output v hlow (by rw [List.length_drop] at hhigh; omega)]
  unfold contents
  rw [List.getD_eq_getElem?_getD, List.getD_eq_getElem?_getD, List.getElem?_drop]
  congr 2
  omega

/-! ## Literals -/

variable {length offset : Nat}

section Relation

variable {e : Env} {source m m' : Mem} {n : Nat} {buf : List UInt8} {ip ip' op limit slack : Int}

/-- History in reach of `op'` survives writes that stay in the output and less than
`slack` bytes above `op'`. -/
theorem phys_outside (clear : e.HistoryClear n slack) {op' : Int} (hop : e.dst ≤ op)
    (hop' : op ≤ op') (hlimit : limit ≤ e.oend) (hoend : op' ≤ e.oend)
    (hslack : limit ≤ op' + slack) (hlow : e.dst - n ≤ v) (hreach : op' - 65535 ≤ v) (hv : v < op) :
    e.phys v < op ∨ limit ≤ e.phys v := by
  by_cases hext : v < e.lowPrefix
  · rcases clear v op' hlow hext (by omega) hoend hreach with h | h | h
    · exact Or.inl (by omega)
    · exact Or.inr (by omega)
    · exact Or.inr (by omega)
  · rw [Env.phys_of_le (by omega)]
    exact Or.inl hv

/-- Literals extend the list by the input they were read from. -/
theorem Rel.literals (serves : e.Serves n) (clear : e.HistoryClear n slack)
    (rel : Rel e source n buf m ip op) {lit : Int}
    (copied : LiteralsCopied m m' op lit length limit) (hip : ip ≤ lit)
    (hiend : lit + length ≤ e.iend) (hlimit : limit ≤ e.oend) (hop : op + length ≤ e.oend)
    (hslack : limit ≤ op + length + slack) (hsource : e.iend ≤ e.dst ∨ limit ≤ lit + length) :
    Rel e source n (buf ++ source.bytes lit length) m' (lit + length) (op + length) := by
  have hlp := serves.lowPrefix_le
  obtain ⟨hinput, hpos, hle, hwindow, houtput⟩ := rel
  have hlit : ∀ v, op ≤ v → v < op + length →
      m' v = contents (e.dst - n) (buf ++ source.bytes lit length) v := by
    intro v hlow hhigh
    rw [copied.copied v hlow hhigh, hinput _ (by omega) (by omega),
      contents_append_right (by omega), ← hpos, contents_bytes hlow hhigh]
  have hold : ∀ v, e.dst - n ≤ v → v < op →
      contents (e.dst - n) (buf ++ source.bytes lit length) v = contents (e.dst - n) buf v :=
    fun v hlow hhigh => contents_append _ (by omega) hlow
  refine ⟨?_, by rw [List.length_append, Mem.length_bytes]; omega, by omega, ?_, ?_⟩
  · intro a hlow hhigh
    rw [copied.frame a (by omega), hinput a (by omega) hhigh]
  · intro v hlow hreach hhigh
    rcases Int.lt_or_le v op with hbelow | habove
    · rw [hold v hlow hbelow, ← hwindow v hlow (by omega) hbelow]
      exact copied.frame _ (phys_outside clear hle (by omega) hlimit hop hslack hlow hreach
        hbelow)
    · rw [Env.phys_of_le (by omega), hlit v habove hhigh]
  · intro v hlow hhigh
    rcases Int.lt_or_le v op with hbelow | habove
    · rw [hold v (by omega) hbelow, ← houtput v hlow hbelow]
      exact copied.frame _ (Or.inl hbelow)
    · exact hlit v habove hhigh

/-! ## Matches -/

/-- A match of `length` bytes was laid down at `op`.  Bytes that lie before the prefix
come from the dictionary as it was, the others from where they now are. -/
structure MatchDone (e : Env) (m m' : Mem) (op : Int) (offset length : Nat) (limit : Int) :
    Prop where
  frame : ∀ a, (a < op ∨ limit ≤ a) → m' a = m a
  zero : offset = 0 → ∀ a, op ≤ a → a < op + length → m' a = 0
  dictionary : ∀ a, op ≤ a → a < op + length → a - offset < e.lowPrefix →
    m' a = m (e.phys (a - offset))
  back : 0 < offset → ∀ a, op ≤ a → a < op + length → e.lowPrefix ≤ a - offset →
    m' a = m' (a - offset)

theorem MatchDone.of_matchCopied (copied : MatchCopied m m' op offset length limit)
    (hlow : e.lowPrefix ≤ op - offset) : MatchDone e m m' op offset length limit where
  frame := copied.frame
  zero := copied.zero
  dictionary a hop _ hext := by omega
  back hpos a hop hhigh _ := copied.periodic hpos a hop hhigh

/-- What a completed match holds, byte for byte. -/
theorem MatchDone.contents (serves : e.Serves n) (rel : Rel e source n buf m ip op)
    (done : MatchDone e m m' op offset length limit) (hoffset : offset < 65536)
    (hreach : e.dst - n ≤ op - offset) :
    ∀ k : Nat, k < length → m' (op + k) =
      contents (e.dst - n) (Lz4.copyMatch buf offset length) (op + k) := by
  have hlp := serves.lowPrefix_le
  obtain ⟨-, hpos, hle, hwindow, -⟩ := rel
  intro k
  -- a byte may repeat one of the same match, so induct along it
  induction k using Nat.strong_induction_on with
  | _ k ih =>
    intro hk
    have hindex : (op + k - (e.dst - n)).toNat = buf.length + k := by omega
    unfold Decoder.contents
    rw [hindex, getD_copyMatch (by omega) (by omega) (by omega)]
    by_cases h0 : offset = 0
    · rw [if_pos h0]
      exact done.zero h0 _ (by omega) (by omega)
    · rw [if_neg h0]
      have hsource : buf.length + k - offset = (op + k - offset - (e.dst - n)).toNat := by omega
      have hold : op + k - offset < op →
          m (e.phys (op + k - offset)) =
            (Lz4.copyMatch buf offset length).getD (buf.length + k - offset) 0 := by
        intro hbelow
        rw [hwindow _ (by omega) (by omega) hbelow, getD_copyMatch_lt _ _ (by omega), hsource]
        rfl
      by_cases hext : op + k - offset < e.lowPrefix
      · rw [done.dictionary _ (by omega) (by omega) hext]
        exact hold (by omega)
      · rw [done.back (by omega) _ (by omega) (by omega) (by omega)]
        by_cases hbelow : op + k - offset < op
        · rw [done.frame _ (Or.inl hbelow), ← hold hbelow, Env.phys_of_le (by omega)]
        · have hprev := ih (k - offset) (by omega) (by omega)
          have haddr : op + ((k - offset : Nat) : Int) = op + k - offset := by omega
          rw [haddr] at hprev
          rw [hprev, hsource]
          rfl

theorem MatchDone.contents_of_mem (serves : e.Serves n) (rel : Rel e source n buf m ip op)
    (done : MatchDone e m m' op offset length limit) (hoffset : offset < 65536)
    (hreach : e.dst - n ≤ op - offset) (hlow : op ≤ a) (hhigh : a < op + length) :
    m' a = Decoder.contents (e.dst - n) (Lz4.copyMatch buf offset length) a := by
  have haddr : a = op + ((a - op).toNat : Int) := by omega
  rw [haddr]
  exact done.contents serves rel hoffset hreach _ (by omega)

/-- A match extends the list as the reference interpretation does. -/
theorem Rel.copyMatch (serves : e.Serves n) (clear : e.HistoryClear n slack)
    (rel : Rel e source n buf m ip op) (done : MatchDone e m m' op offset length limit)
    (hoffset : offset < 65536) (hreach : e.dst - n ≤ op - offset) (hip : ip ≤ ip')
    (hlimit : limit ≤ e.oend) (hop : op + length ≤ e.oend) (hslack : limit ≤ op + length + slack)
    (hsource : e.iend ≤ e.dst ∨ ∀ a, ip' ≤ a → a < limit → m' a = source a) :
    Rel e source n (Lz4.copyMatch buf offset length) m' ip' (op + length) := by
  have hlp := serves.lowPrefix_le
  have hnew : ∀ v, op ≤ v → v < op + length →
      m' v = contents (e.dst - n) (Lz4.copyMatch buf offset length) v :=
    fun v hlow hhigh => done.contents_of_mem serves rel hoffset hreach hlow hhigh
  obtain ⟨hinput, hpos, hle, hwindow, houtput⟩ := rel
  have hold : ∀ v, e.dst - n ≤ v → v < op →
      contents (e.dst - n) (Lz4.copyMatch buf offset length) v = contents (e.dst - n) buf v :=
    fun v hlow hhigh => getD_copyMatch_lt _ _ (by omega)
  refine ⟨?_, by rw [length_copyMatch]; omega, by omega, ?_, ?_⟩
  · intro a hlow hhigh
    by_cases hhit : op ≤ a ∧ a < limit
    · rcases hsource with hbelow | hkept
      · omega
      · exact hkept a hlow hhit.2
    · rw [done.frame a (by omega), hinput a (by omega) hhigh]
  · intro v hlow hreach' hhigh
    rcases Int.lt_or_le v op with hbelow | habove
    · rw [hold v hlow hbelow, ← hwindow v hlow (by omega) hbelow]
      exact done.frame _ (phys_outside clear hle (by omega) hlimit hop hslack hlow hreach'
        hbelow)
    · rw [Env.phys_of_le (by omega), hnew v habove hhigh]
  · intro v hlow hhigh
    rcases Int.lt_or_le v op with hbelow | habove
    · rw [hold v (by omega) hbelow, ← houtput v hlow hbelow]
      exact done.frame _ (Or.inl hbelow)
    · exact hnew v habove hhigh

end Relation

end Lz4.Decoder
