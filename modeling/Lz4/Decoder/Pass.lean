import Lz4.Decoder.Generic

/-!
# What a pass of the decoder does

A pass of either loop has two parts.  First the literals: their length is read, and they are
copied in one of four ways, or the call ends with them (`LiteralPass`).  Behind them the pass goes
on at one of three places of the code (`Entry`), where the offset and the length of the match are
read and the match is copied in one of three ways (`MatchPass`).

The input alone decides which forms these are, and the margins tested on the way are those of the
chosen form.  `exists_literalPass` and `exists_matchPass` say so for every heap that holds the
input from the position on; they do not ask where the copies go.  What is proved about the passes
of the decoder is proved about these forms.
-/

namespace Lz4.Decoder

open FlatMemory

/-! ## Variable lengths -/

theorem readLengthBytes_snd (m : Mem) (n : Nat) (ip : Int) (acc : Nat) :
    ip < (readLengthBytes m n ip acc).2 ∧ (readLengthBytes m n ip acc).2 ≤ ip + n + 1 ∧
      ((readLengthBytes m n ip acc).1.isSome → (readLengthBytes m n ip acc).2 ≤ ip + n) := by
  induction n generalizing ip acc with
  | zero => simp [readLengthBytes]
  | succ n ih =>
    simp only [readLengthBytes]
    split
    · obtain ⟨h1, h2, h3⟩ := ih (ip + 1) (acc + (m ip).toNat)
      refine ⟨by omega, by omega, fun hsome => ?_⟩
      have := h3 hsome
      omega
    · omega

/-- Where `read_variable_length` may leave the input pointer. -/
theorem readVariableLength_snd (m : Mem) (ip ilimit : Int) (initialCheck : Bool) :
    ip ≤ (readVariableLength m ip ilimit initialCheck).2 ∧
      ((readVariableLength m ip ilimit initialCheck).2 ≤ max ip ilimit + 1) ∧
      (initialCheck = true → (readVariableLength m ip ilimit initialCheck).2 ≤ max ip (ilimit + 1)) ∧
      ((readVariableLength m ip ilimit initialCheck).1.isSome →
        ip < (readVariableLength m ip ilimit initialCheck).2 ∧
          (readVariableLength m ip ilimit initialCheck).2 ≤ ilimit) := by
  unfold readVariableLength
  split
  · simp
    omega
  · rename_i hcheck
    obtain ⟨h1, h2, h3⟩ := readLengthBytes_snd m (ilimit - ip).toNat ip 0
    have hle : ¬ ip < ilimit → (readLengthBytes m (ilimit - ip).toNat ip 0).1.isSome →
        (readLengthBytes m (ilimit - ip).toNat ip 0).2 ≤ ip := by
      intro hge hsome
      have := h3 hsome
      omega
    refine ⟨by omega, by omega, fun hinit => ?_, fun hsome => ⟨h1, ?_⟩⟩
    · simp only [hinit, true_and] at hcheck
      omega
    · have := h3 hsome
      by_cases hlt : ip < ilimit
      · omega
      · omega

theorem readLE16_lt (m : Mem) (a : Int) : readLE16 m a < 65536 := by
  have h0 := (m a).toNat_lt
  have h1 := (m (a + 1)).toNat_lt
  unfold readLE16
  omega

variable {ip : Int} {m' m : Mem}

theorem readLengthBytes_congr {n : Nat} {acc : Nat} (h : ∀ a, ip ≤ a → a < ip + n → m a = m' a) :
    readLengthBytes m n ip acc = readLengthBytes m' n ip acc := by
  induction n generalizing ip acc with
  | zero => rfl
  | succ n ih =>
    simp only [readLengthBytes]
    rw [h ip (by omega) (by omega), ih fun a hlow hhigh => h a (by omega) (by omega)]

theorem readVariableLength_congr {ilimit : Int} {initialCheck : Bool}
    (h : ∀ a, ip ≤ a → a < ilimit → m a = m' a) :
    readVariableLength m ip ilimit initialCheck = readVariableLength m' ip ilimit initialCheck := by
  unfold readVariableLength
  split
  · rfl
  · exact readLengthBytes_congr fun a hlow hhigh => h a hlow (by omega)

theorem readLE16_congr {a : Int} (h0 : m a = m' a) (h1 : m (a + 1) = m' (a + 1)) :
    readLE16 m a = readLE16 m' a := by
  unfold readLE16
  rw [h0, h1]

/-- Length and position of the literals of the sequence at `ip`. -/
def literalRun (e : Env) (source : Mem) (ip : Int) : Option (Nat × Int) :=
  if (source ip).toNat / 16 = 15 then
    match readVariableLength source (ip + 1) (e.iend - 15) true with
    | (none, _) => none
    | (some addl, ip') => some (15 + addl, ip')
  else some ((source ip).toNat / 16, ip + 1)

/-- Length of the match whose length bytes, if any, start at `ip`, and the position
behind them. -/
def matchRun (e : Env) (source : Mem) (field : Nat) (ip : Int) : Option (Nat × Int) :=
  if field = 15 then
    match readVariableLength source ip (e.iend - 5 + 1) false with
    | (none, _) => none
    | (some addl, ip') => some (15 + addl + 4, ip')
  else some (field + 4, ip)

/-- Length and position of the literals of the sequence at `ip`; without a length the position is
that of the error. -/
def literalLength (e : Env) (source : Mem) (ip : Int) : Option Nat × Int :=
  if (source ip).toNat / 16 = 15 then
    match readVariableLength source (ip + 1) (e.iend - 15) true with
    | (none, ip') => (none, ip')
    | (some addl, ip') => (some (15 + addl), ip')
  else (some ((source ip).toNat / 16), ip + 1)

/-- The same for the length of the match. -/
def matchLength (e : Env) (source : Mem) (field : Nat) (ip : Int) : Option Nat × Int :=
  if field = 15 then
    match readVariableLength source ip (e.iend - 5 + 1) false with
    | (none, ip') => (none, ip')
    | (some addl, ip') => (some (15 + addl + 4), ip')
  else (some (field + 4), ip)

variable {source : Mem} {length : Nat} {e : Env}

theorem literalRun_le {lit : Int} (h : literalRun e source ip = some (length, lit)) :
    ip < lit ∧ (15 ≤ length → ip + 2 ≤ lit ∧ lit ≤ e.iend - 15) ∧ (length < 15 → lit = ip + 1) := by
  unfold literalRun at h
  have hsnd := readVariableLength_snd source (ip + 1) (e.iend - 15) true
  split at h
  · split at h
    · simp at h
    · rename_i addl ip' hread
      rw [hread] at hsnd
      simp only [Option.isSome_some, forall_const, Option.some.injEq, Prod.mk.injEq] at hsnd h
      omega
  · simp only [Option.some.injEq, Prod.mk.injEq] at h
    have := (source ip).toNat_lt
    omega

variable {field : Nat} {ip' : Int}

theorem matchRun_le (h : matchRun e source field ip = some (length, ip')) :
    4 ≤ length ∧ ip ≤ ip' ∧ (field = 15 → 19 ≤ length ∧ ip' ≤ e.iend - 4) ∧
      (field ≠ 15 → length = field + 4 ∧ ip' = ip) := by
  unfold matchRun at h
  have hsnd := readVariableLength_snd source ip (e.iend - 5 + 1) false
  split at h
  · split at h
    · simp at h
    · rename_i addl ip'' hread
      rw [hread] at hsnd
      simp only [Option.isSome_some, forall_const, Option.some.injEq, Prod.mk.injEq] at hsnd h
      omega
  · simp only [Option.some.injEq, Prod.mk.injEq] at h
    omega

/-! ## The forms of a pass -/

/-- Note a read of the input from `ip` to `ip'`, unless it is empty. -/
def loadTo (h : Heap) (ip ip' : Int) : Heap :=
  if ip < ip' then h.load .input ip (ip' - ip).toNat else h

@[simp] theorem loadTo_mem (h : Heap) (ip ip' : Int) : (loadTo h ip ip').mem = h.mem := by
  unfold loadTo
  split
  · rfl
  · rfl

theorem loadTo_self (h : Heap) (ip : Int) : loadTo h ip ip = h := if_neg (Int.lt_irrefl ip)

/-- How literals are copied. -/
inductive LiteralCopy
  | stripe
  | wild8
  | wild32
  | exact

def LiteralCopy.run (how : LiteralCopy) (h : Heap) (op lit : Int) (length : Nat) : Heap :=
  match how with
  | .stripe => h.memcpy .input op lit 16
  | .wild8 => wildCopy8 .input h op lit (op + length)
  | .wild32 => wildCopy32 .input h op lit (op + length)
  | .exact => h.memcpy .input op lit length

/-- The margins with which the copy is chosen. -/
def LiteralCopy.Fits (how : LiteralCopy) (e : Env) (op lit : Int) (length : Nat) : Prop :=
  match how with
  | .stripe => length ≤ 16 ∧ lit + 16 ≤ e.iend ∧ op + 16 ≤ e.oend
  | .wild8 => lit + length ≤ e.iend - 8 ∧ op + length ≤ e.oend - 12
  | .wild32 => 15 ≤ length ∧ lit + length ≤ e.iend - 32 ∧ op + length ≤ e.oend - 32
  | .exact => op + length ≤ e.oend

/-- How a match is copied. -/
inductive MatchCopy
  | eighteen (fast : Bool)
  | safeCopy
  | fastCopy

def MatchCopy.run (how : MatchCopy) (e : Env) (h : Heap) (ip op : Int) (offset length : Nat) :
    Next :=
  match how with
  | .eighteen fast =>
    .loop fast (((h.memcpy .window op (op - offset) 8).memcpy .window (op + 8)
      (op - offset + 8) 8).memcpy .window (op + 16) (op - offset + 16) 2) ip (op + length)
  | .safeCopy => safeMatchCopy e h ip op offset length
  | .fastCopy => fastMatchCopy e h ip op offset length

def MatchCopy.Fits (how : MatchCopy) (e : Env) (op : Int) (offset length : Nat) : Prop :=
  match how with
  | .eighteen fast => 8 ≤ offset ∧ length ≤ 18 ∧ op + 18 ≤ e.oend ∧
      (e.dict = .withPrefix64k ∨ op - offset ≥ e.lowPrefix) ∧
      (fast = true → op + length < e.oend - 64)
  | .safeCopy => True
  | .fastCopy => op + length < e.oend - 64

/-- A pass behind the offset: the length of the match cannot be read, or it is copied. -/
inductive MatchPass
  | fail (ip' : Int)
  | copy (how : MatchCopy) (length : Nat) (ip' : Int)

def MatchPass.run (pass : MatchPass) (e : Env) (h : Heap) (ip op : Int) (offset : Nat) : Next :=
  match pass with
  | .fail ip' => outputError e (h.load .input ip (ip' - ip).toNat) ip'
  | .copy how length ip' => how.run e (loadTo h ip ip') ip' op offset length

def MatchPass.Fits (pass : MatchPass) (e : Env) (source : Mem) (field : Nat) (ip op : Int)
    (offset : Nat) : Prop :=
  match pass with
  | .fail ip' => matchRun e source field ip = none ∧ ip ≤ ip'
  | .copy how length ip' => matchRun e source field ip = some (length, ip') ∧
      how.Fits e op offset length

/-- The shortcut serves every match in the current block at a distance of at least 8. -/
def Served (e : Env) (op : Int) (offset : Nat) : Prop :=
  8 ≤ offset ∧ (e.dict = .withPrefix64k ∨ op - offset ≥ e.lowPrefix)

instance (e : Env) (op : Int) (offset : Nat) : Decidable (Served e op offset) :=
  inferInstanceAs (Decidable (_ ∧ _))

/-- Where a pass goes on behind its literals. -/
inductive Entry
  | offset
  | shortcut
  | fast

def Entry.run (entry : Entry) (e : Env) (h : Heap) (token : Nat) (ip op : Int) : Next :=
  match entry with
  | .offset => getOffset e h token ip op
  | .shortcut =>
    if token % 16 ≠ 15 ∧ Served e op (readLE16 h.mem ip) then
      MatchCopy.run (.eighteen false) e (h.load .input ip 2) (ip + 2) op (readLE16 h.mem ip)
        (token % 16 + 4)
    else copyMatch e (h.load .input ip 2) (ip + 2) op (readLE16 h.mem ip) (token % 16)
  | .fast => fastMatch e h token ip op

/-- The entries from which a copy of a match is chosen, and why. -/
def MatchCopy.Chosen (how : MatchCopy) (e : Env) (entry : Entry) (field : Nat) (op : Int)
    (offset length : Nat) : Prop :=
  match how with
  | .eighteen fast => entry = if fast then .fast else .shortcut
  | .safeCopy => (entry = .shortcut → field ≠ 15 → ¬ Served e op offset) ∧
      (entry = .fast → op + length ≥ e.oend - 64)
  | .fastCopy => entry = .fast ∧ (length < 19 → ¬ Served e op offset)

def MatchPass.Chosen (pass : MatchPass) (e : Env) (source : Mem) (entry : Entry) (field : Nat)
    (ip op : Int) (offset : Nat) : Prop :=
  match pass with
  | .fail ip' => matchLength e source field ip = (none, ip') ∧ ip' ≤ e.iend
  | .copy how length _ => how.Chosen e entry field op offset length

/-- The safe loop takes its shortcut for the literals. -/
def Shortcut (e : Env) (token : Nat) (lit op : Int) : Prop :=
  token / 16 ≠ 15 ∧ lit < e.iend - 16 ∧ op ≤ e.oend - 32

/-- The test of the fast loop that lets it copy literals in strips. -/
def FastLiterals (e : Env) (op lit : Int) (length : Nat) : Prop :=
  (length < 15 → lit ≤ e.iend - (16 + 1)) ∧
    (15 ≤ length → op + length ≤ e.oend - 32 ∧ lit + length ≤ e.iend - 32)

/-- The part of a pass up to the match: the length of the literals cannot be read, they are
refused, they are the last that is copied, or a match follows. -/
inductive LiteralPass
  | fail (ip' : Int)
  | refuse (lit : Int)
  | stop (lit : Int) (length : Nat)
  | go (lit : Int) (length : Nat) (how : LiteralCopy) (entry : Entry)

def LiteralPass.run (pass : LiteralPass) (e : Env) (h : Heap) (token : Nat) (ip op : Int) : Next :=
  match pass with
  | .fail ip' =>
    outputError e ((h.load .input ip 1).load .input (ip + 1) (ip' - (ip + 1)).toNat) ip'
  | .refuse lit => outputError e (loadTo (h.load .input ip 1) (ip + 1) lit) lit
  | .stop lit length =>
    .ret (op + length - e.dst)
      ((loadTo (h.load .input ip 1) (ip + 1) lit).memcpy .input op lit length)
  | .go lit length how entry =>
    entry.run e (how.run (loadTo (h.load .input ip 1) (ip + 1) lit) op lit length) token
      (lit + length) (op + length)

/-- The last literals that are copied: the output is full, or no offset follows. -/
structure Stops (e : Env) (full : Nat) (lit op : Int) (length : Nat) : Prop where
  length_eq : length = min (min full (e.iend - lit).toNat) (e.oend - op).toNat
  ends : op + length = e.oend ∨ e.iend - 2 ≤ lit + length

/-- Literals that are not copied with words to spare. -/
structure Near (e : Env) (token : Nat) (lit op : Int) (length : Nat) : Prop where
  long : ¬ Shortcut e token lit op
  near : op + length > e.oend - 12 ∨ lit + length > e.iend - 8

/-- Literals that are followed by a match. -/
structure Goes (e : Env) (fast : Bool) (token : Nat) (lit op : Int) (length : Nat)
    (how : LiteralCopy) (entry : Entry) : Prop where
  more : lit + length + 2 < e.iend
  room : op + length < e.oend
  fits : how.Fits e op lit length
  full : e.partialDecoding = false → op + length ≤ e.oend - 12 ∧ how ≠ .exact
  stripe : how = .stripe → Shortcut e token lit op
  wide : how = .wild32 → fast = true
  strips : fast = true → FastLiterals e op lit length → entry = .fast
  offset : entry = .offset → ¬ Shortcut e token lit op
  shortcut : entry = .shortcut → Shortcut e token lit op ∧ op + length ≤ e.oend - 18
  fast : entry = .fast → fast = true ∧ op + length ≤ e.oend - 32

def LiteralPass.Fits (pass : LiteralPass) (e : Env) (source : Mem) (fast : Bool) (ip op : Int) :
    Prop :=
  match pass with
  | .fail ip' => literalLength e source ip = (none, ip') ∧ ip < ip' ∧ ip' ≤ e.iend
  | .refuse lit => ∃ length, literalRun e source ip = some (length, lit) ∧
      Near e (source ip).toNat lit op length ∧ e.partialDecoding = false ∧
      (lit + length ≠ e.iend ∨ op + length > e.oend)
  | .stop lit length => ∃ full, literalRun e source ip = some (full, lit) ∧
      Near e (source ip).toNat lit op full ∧ Stops e full lit op length ∧
      (e.partialDecoding = false → length = full ∧ lit + length = e.iend)
  | .go lit length how entry => literalRun e source ip = some (length, lit) ∧
      Goes e fast (source ip).toNat lit op length how entry

/-- The input from `ip` on is that of `source`. -/
def SameFrom (e : Env) (source : Mem) (ip : Int) (h : Heap) : Prop :=
  ∀ a, ip ≤ a → a < e.iend → h.mem a = source a

section

variable {e : Env} {source : Mem} {ip op lit : Int} {token length : Nat}

/-! ## Lengths -/

theorem literalLength_of_run (hrun : literalRun e source ip = some (length, lit)) :
    literalLength e source ip = (some length, lit) := by
  unfold literalRun at hrun
  unfold literalLength
  split at hrun
  · split at hrun
    · simp at hrun
    · simp_all
  · simp_all

theorem literalRun_of_none (hnone : literalLength e source ip = (none, ip')) :
    literalRun e source ip = none := by
  cases hrun : literalRun e source ip with
  | none => rfl
  | some run => simp [literalLength_of_run hrun] at hnone

/-- The length of the literals, as both loops read it. -/
theorem literalRun_cases (source : Mem) (hiend : ip < e.iend) :
    ((source ip).toNat / 16 ≠ 15 ∧
      literalRun e source ip = some ((source ip).toNat / 16, ip + 1)) ∨
    ((source ip).toNat / 16 = 15 ∧ ∃ ip', literalLength e source ip = (none, ip') ∧ ip < ip' ∧
      ip' ≤ e.iend ∧ ∀ h, SameFrom e source ip h →
        readVariableLength h.mem (ip + 1) (e.iend - 15) true = (none, ip')) ∨
    ((source ip).toNat / 16 = 15 ∧ ∃ addl lit, ip + 1 < lit ∧ lit ≤ e.iend - 15 ∧
      literalRun e source ip = some (15 + addl, lit) ∧ ∀ h, SameFrom e source ip h →
        readVariableLength h.mem (ip + 1) (e.iend - 15) true = (some addl, lit)) := by
  have hsnd := readVariableLength_snd source (ip + 1) (e.iend - 15) true
  have hsame {h : Heap} (hsame : SameFrom e source ip h) :
      readVariableLength h.mem (ip + 1) (e.iend - 15) true =
        readVariableLength source (ip + 1) (e.iend - 15) true :=
    readVariableLength_congr fun a hlow hhigh => hsame a (by omega) (by omega)
  by_cases hfield : (source ip).toNat / 16 = 15
  · right
    rcases hread : readVariableLength source (ip + 1) (e.iend - 15) true with ⟨_ | addl, ip'⟩
    · rw [hread] at hsnd hsame
      obtain ⟨hlow, -, hhigh, -⟩ := hsnd
      have := hhigh rfl
      exact Or.inl ⟨hfield, ip', by simp [literalLength, hfield, hread], by omega, by omega,
        fun h => hsame⟩
    · rw [hread] at hsnd hsame
      simp only [Option.isSome_some, forall_const] at hsnd
      exact Or.inr ⟨hfield, addl, ip', by omega, by omega, by simp [literalRun, hfield, hread],
        fun h => hsame⟩
  · exact Or.inl ⟨hfield, if_neg hfield⟩

/-- The length of a match. -/
theorem matchRun_cases (source : Mem) (field : Nat) (hiend : ip < e.iend) :
    (field ≠ 15 ∧ matchRun e source field ip = some (field + 4, ip)) ∨
    (field = 15 ∧ ∃ ip', matchRun e source field ip = none ∧
      matchLength e source field ip = (none, ip') ∧ ip ≤ ip' ∧ ip' ≤ e.iend ∧
      ∀ h, SameFrom e source ip h →
        readVariableLength h.mem ip (e.iend - 5 + 1) false = (none, ip')) ∨
    (field = 15 ∧ ∃ addl ip', ip < ip' ∧ matchRun e source field ip = some (15 + addl + 4, ip') ∧
      ∀ h, SameFrom e source ip h →
        readVariableLength h.mem ip (e.iend - 5 + 1) false = (some addl, ip')) := by
  have hsnd := readVariableLength_snd source ip (e.iend - 5 + 1) false
  have hsame {h : Heap} (hsame : SameFrom e source ip h) :
      readVariableLength h.mem ip (e.iend - 5 + 1) false =
        readVariableLength source ip (e.iend - 5 + 1) false :=
    readVariableLength_congr fun a hlow hhigh => hsame a hlow (by omega)
  by_cases hfield : field = 15
  · right
    rcases hread : readVariableLength source ip (e.iend - 5 + 1) false with ⟨_ | addl, ip'⟩
    · rw [hread] at hsnd hsame
      exact Or.inl ⟨hfield, ip', by simp [matchRun, hfield, hread],
        by simp [matchLength, hfield, hread], hsnd.1, by omega, fun h => hsame⟩
    · rw [hread] at hsnd hsame
      simp only [Option.isSome_some, forall_const] at hsnd
      exact Or.inr ⟨hfield, addl, ip', hsnd.2.2.2.1, by simp [matchRun, hfield, hread],
        fun h => hsame⟩
  · exact Or.inl ⟨hfield, if_neg hfield⟩

/-! ## Behind the literals -/

theorem copyMatch_pass (source : Mem) {entry : Entry} {offset : Nat} (op : Int)
    (hiend : ip < e.iend) (hslow : entry ≠ .fast)
    (hentry : entry = .shortcut → field ≠ 15 → ¬ Served e op offset) :
    ∃ pass : MatchPass, pass.Fits e source field ip op offset ∧
      pass.Chosen e source entry field ip op offset ∧ ∀ h, SameFrom e source ip h →
      copyMatch e h ip op offset field = pass.run e h ip op offset := by
  rcases matchRun_cases source field hiend with ⟨hfield, hrun⟩ |
    ⟨hfield, ip', hrun, hlength, hlow, hhigh, hread⟩ | ⟨hfield, addl, ip', hlow, hrun, hread⟩
  · refine ⟨.copy .safeCopy (field + 4) ip, ⟨hrun, trivial⟩,
      ⟨hentry, fun heq => absurd heq hslow⟩, fun h _ => ?_⟩
    simp only [copyMatch, if_neg hfield, MatchPass.run, MatchCopy.run, loadTo_self]
  · refine ⟨.fail ip', ⟨hrun, hlow⟩, ⟨hlength, hhigh⟩, fun h hsame => ?_⟩
    simp only [copyMatch, if_pos hfield, hread h hsame, MatchPass.run]
  · refine ⟨.copy .safeCopy (15 + addl + 4) ip', ⟨hrun, trivial⟩,
      ⟨hentry, fun heq => absurd heq hslow⟩, fun h hsame => ?_⟩
    simp only [copyMatch, if_pos hfield, hread h hsame, MatchPass.run, MatchCopy.run, loadTo,
      if_pos hlow]
    rw [if_neg (by omega), hfield]

theorem fastMatch_pass (source : Mem) (token : Nat) (hiend : ip + 2 < e.iend)
    (hoend : op ≤ e.oend - 32) :
    ∃ pass : MatchPass, pass.Fits e source (token % 16) (ip + 2) op (readLE16 source ip) ∧
      pass.Chosen e source .fast (token % 16) (ip + 2) op (readLE16 source ip) ∧
      ∀ h, SameFrom e source ip h → fastMatch e h token ip op =
        pass.run e (h.load .input ip 2) (ip + 2) op (readLE16 source ip) := by
  have hoffset {h : Heap} (hsame : SameFrom e source ip h) :
      readLE16 h.mem ip = readLE16 source ip :=
    readLE16_congr (hsame _ (by omega) (by omega)) (hsame _ (by omega) (by omega))
  have hnext {h : Heap} (hsame : SameFrom e source ip h) :
      SameFrom e source (ip + 2) (h.load .input ip 2) := fun a hlow => hsame a (by omega)
  generalize readLE16 source ip = offset at *
  rcases matchRun_cases source (token % 16) hiend with ⟨hfield, hrun⟩ |
    ⟨hfield, ip', hrun, hlength, hlow, hhigh, hread⟩ | ⟨hfield, addl, ip', hlow, hrun, hread⟩
  · by_cases hnear : op + ((token % 16 + 4 : Nat) : Int) ≥ e.oend - 64
    · refine ⟨.copy .safeCopy (token % 16 + 4) (ip + 2), ⟨hrun, trivial⟩,
        ⟨Entry.noConfusion, fun _ => hnear⟩, fun h hsame => ?_⟩
      simp only [fastMatch, if_neg hfield, if_pos hnear, hoffset hsame, MatchPass.run,
        MatchCopy.run, loadTo_self]
    · by_cases hserved : (e.dict = .withPrefix64k ∨ op - (offset : Int) ≥ e.lowPrefix) ∧ offset ≥ 8
      · refine ⟨.copy (.eighteen true) (token % 16 + 4) (ip + 2),
          ⟨hrun, hserved.2, by omega, by omega, hserved.1, fun _ => by omega⟩, rfl,
          fun h hsame => ?_⟩
        simp only [fastMatch, if_neg hfield, if_neg hnear, hoffset hsame, if_pos hserved,
          MatchPass.run, MatchCopy.run, loadTo_self]
      · refine ⟨.copy .fastCopy (token % 16 + 4) (ip + 2), ⟨hrun, Int.not_le.1 hnear⟩,
          ⟨rfl, fun _ hall => hserved hall.symm⟩, fun h hsame => ?_⟩
        simp only [fastMatch, if_neg hfield, if_neg hnear, hoffset hsame, if_neg hserved,
          MatchPass.run, MatchCopy.run, loadTo_self]
  · refine ⟨.fail ip', ⟨hrun, hlow⟩, ⟨hlength, hhigh⟩, fun h hsame => ?_⟩
    simp only [fastMatch, if_pos hfield, hread _ (hnext hsame), MatchPass.run]
  · by_cases hnear : op + ((15 + addl + 4 : Nat) : Int) ≥ e.oend - 64
    · refine ⟨.copy .safeCopy (15 + addl + 4) ip', ⟨hrun, trivial⟩,
        ⟨Entry.noConfusion, fun _ => hnear⟩, fun h hsame => ?_⟩
      simp only [fastMatch, hfield, if_true, hread _ (hnext hsame), if_pos hnear, hoffset hsame,
        MatchPass.run, MatchCopy.run, loadTo, if_pos hlow]
      rw [if_neg (by omega)]
    · refine ⟨.copy .fastCopy (15 + addl + 4) ip', ⟨hrun, Int.not_le.1 hnear⟩,
        ⟨rfl, fun _ => by omega⟩, fun h hsame => ?_⟩
      simp only [fastMatch, hfield, if_true, hread _ (hnext hsame), if_neg hnear, hoffset hsame,
        MatchPass.run, MatchCopy.run, loadTo, if_pos hlow]
      rw [if_neg (by omega)]

/-- The input decides how a pass goes on behind its literals. -/
theorem exists_matchPass (source : Mem) (token : Nat) (entry : Entry) (hiend : ip + 2 < e.iend)
    (hshort : entry = .shortcut → op ≤ e.oend - 18) (hfast : entry = .fast → op ≤ e.oend - 32) :
    ∃ pass : MatchPass, pass.Fits e source (token % 16) (ip + 2) op (readLE16 source ip) ∧
      pass.Chosen e source entry (token % 16) (ip + 2) op (readLE16 source ip) ∧
      ∀ h, SameFrom e source ip h → entry.run e h token ip op =
        pass.run e (h.load .input ip 2) (ip + 2) op (readLE16 source ip) := by
  have hoffset {h : Heap} (hsame : SameFrom e source ip h) :
      readLE16 h.mem ip = readLE16 source ip :=
    readLE16_congr (hsame _ (by omega) (by omega)) (hsame _ (by omega) (by omega))
  have hnext {h : Heap} (hsame : SameFrom e source ip h) :
      SameFrom e source (ip + 2) (h.load .input ip 2) := fun a hlow => hsame a (by omega)
  cases entry with
  | offset =>
    have hentry : Entry.offset = .shortcut → token % 16 ≠ 15 →
        ¬ Served e op (readLE16 source ip) := Entry.noConfusion
    obtain ⟨pass, hfits, hchosen, hrun⟩ := copyMatch_pass source op hiend
      Entry.noConfusion hentry
    refine ⟨pass, hfits, hchosen, fun h hsame => ?_⟩
    rw [← hrun _ (hnext hsame), ← hoffset hsame]
    rfl
  | shortcut =>
    by_cases hserved : token % 16 ≠ 15 ∧ Served e op (readLE16 source ip)
    · have := hshort rfl
      refine ⟨.copy (.eighteen false) (token % 16 + 4) (ip + 2), ⟨if_neg hserved.1, hserved.2.1,
        by omega, by omega, hserved.2.2, Bool.noConfusion⟩, rfl, fun h hsame => ?_⟩
      simp only [Entry.run, hoffset hsame, if_pos hserved, MatchPass.run, loadTo_self]
    · obtain ⟨pass, hfits, hchosen, hrun⟩ := copyMatch_pass source op hiend Entry.noConfusion
        fun (_ : Entry.shortcut = .shortcut) hfield served => hserved ⟨hfield, served⟩
      refine ⟨pass, hfits, hchosen, fun h hsame => ?_⟩
      rw [← hrun _ (hnext hsame)]
      simp only [Entry.run, hoffset hsame, if_neg hserved]
  | fast => exact fastMatch_pass source token hiend (hfast rfl)

/-! ## Literals -/

theorem safeLiteralCopy_pass (source : Mem) (fast : Bool)
    (hrun : literalRun e source ip = some (length, lit)) (hiend : lit ≤ e.iend)
    (hoend : op ≤ e.oend) (hlong : ¬ Shortcut e (source ip).toNat lit op)
    (hslow : fast = true → ¬ FastLiterals e op lit length) :
    ∃ pass : LiteralPass, pass.Fits e source fast ip op ∧
      ∀ h, safeLiteralCopy e (loadTo (h.load .input ip 1) (ip + 1) lit) (source ip).toNat lit op
        length = pass.run e h (source ip).toNat ip op := by
  by_cases hnear : op + (length : Int) > e.oend - 12 ∨ lit + (length : Int) > e.iend - 8
  · cases hearly : e.partialDecoding with
    | false =>
      by_cases hbad : lit + (length : Int) ≠ e.iend ∨ op + (length : Int) > e.oend
      · refine ⟨.refuse lit, ⟨length, hrun, ⟨hlong, hnear⟩, hearly, hbad⟩, fun h => ?_⟩
        simp [safeLiteralCopy, hnear, hearly, hbad, LiteralPass.run]
      · refine ⟨.stop lit length, ⟨length, hrun, ⟨hlong, hnear⟩, ⟨by omega, by omega⟩,
          fun _ => ⟨rfl, by omega⟩⟩, fun h => ?_⟩
        simp only [safeLiteralCopy, if_pos hnear, hearly, if_neg hbad, LiteralPass.run]
        rfl
    | true =>
      -- the literals are cut at the end of the input, then at the end of the output
      obtain ⟨length₁, hlength₁⟩ : ∃ x, x = if lit + (length : Int) > e.iend then
          (e.iend - lit).toNat else length := ⟨_, rfl⟩
      obtain ⟨length₂, hlength₂⟩ : ∃ x, x = if op + (length₁ : Int) > e.oend then
          (e.oend - op).toNat else length₁ := ⟨_, rfl⟩
      have hmin₁ : length₁ = min length (e.iend - lit).toNat := by split at hlength₁ <;> omega
      have hmin₂ : length₂ = min length₁ (e.oend - op).toNat := by split at hlength₂ <;> omega
      have hcpy : (if op + (length₁ : Int) > e.oend then e.oend else op + length₁) = e.oend ↔
          op + length₂ = e.oend := by split <;> omega
      have hcall (h : Heap) : safeLiteralCopy e h (source ip).toNat lit op length =
          if op + (length₂ : Int) = e.oend ∨ lit + length₂ ≥ e.iend - 2 then
            .ret (op + length₂ - e.dst) (h.memcpy .input op lit length₂)
          else getOffset e (h.memcpy .input op lit length₂) (source ip).toNat (lit + length₂)
            (op + length₂) := by
        unfold safeLiteralCopy
        dsimp only
        rw [if_pos hnear, if_pos hearly, ← hlength₁, ← hlength₂]
        simp only [hcpy]
      by_cases hends : op + (length₂ : Int) = e.oend ∨ lit + length₂ ≥ e.iend - 2
      · exact ⟨.stop lit length₂, ⟨length, hrun, ⟨hlong, hnear⟩, ⟨by omega, hends⟩,
          by simp [hearly]⟩, fun h => by rw [hcall, if_pos hends]; rfl⟩
      · obtain rfl : length₂ = length := by omega
        refine ⟨.go lit length₂ .exact .offset, ⟨hrun, by omega, by omega,
          show op + _ ≤ e.oend by omega, by simp [hearly], LiteralCopy.noConfusion,
          LiteralCopy.noConfusion, fun hfast hstrips => absurd hstrips (hslow hfast),
          fun _ => hlong, Entry.noConfusion, Entry.noConfusion⟩, fun h => by rw [hcall, if_neg hends]; rfl⟩
  · refine ⟨.go lit length .wild8 .offset, ⟨hrun, by omega, by omega, ⟨by omega, by omega⟩,
      fun _ => ⟨by omega, LiteralCopy.noConfusion⟩, LiteralCopy.noConfusion,
      LiteralCopy.noConfusion, fun hfast hstrips => absurd hstrips (hslow hfast), fun _ => hlong,
      Entry.noConfusion, Entry.noConfusion⟩, fun h => ?_⟩
    simp only [safeLiteralCopy, if_neg hnear, LiteralPass.run, LiteralCopy.run, Entry.run]

theorem safeStep_pass (source : Mem) (hiend : ip < e.iend) (hoend : op ≤ e.oend) :
    ∃ pass : LiteralPass, pass.Fits e source false ip op ∧ ∀ h, SameFrom e source ip h →
      safeStep e h ip op = pass.run e h (source ip).toNat ip op := by
  have htoken {h : Heap} (hsame : SameFrom e source ip h) : h.mem ip = source ip :=
    hsame ip (Int.le_refl ip) hiend
  have hlt := (source ip).toNat_lt
  rcases literalRun_cases source hiend with ⟨hfield, hrun⟩ |
    ⟨hfield, ip', hlength, hlow, hhigh, hread⟩ | ⟨hfield, addl, lit, hlow, hhigh, hrun, hread⟩
  · by_cases hshort : ip + 1 < e.iend - 14 - 2 ∧ op ≤ e.oend - 14 - 18
    · refine ⟨.go (ip + 1) ((source ip).toNat / 16) .stripe .shortcut, ⟨hrun, by omega, by omega,
        ⟨by omega, by omega, by omega⟩, fun _ => ⟨by omega, LiteralCopy.noConfusion⟩,
        fun _ => ⟨hfield, by omega, by omega⟩, LiteralCopy.noConfusion, Bool.noConfusion,
        Entry.noConfusion, fun _ => ⟨⟨hfield, by omega, by omega⟩, by omega⟩, Entry.noConfusion⟩,
        fun h hsame => ?_⟩
      simp only [safeStep, htoken hsame, if_pos (And.intro hfield hshort), LiteralPass.run,
        loadTo_self]
      rfl
    · obtain ⟨pass, hfits, hcall⟩ := safeLiteralCopy_pass source false hrun (by omega) hoend
        (fun hall => hshort ⟨by have := hall.2.1; omega, by have := hall.2.2; omega⟩)
        Bool.noConfusion
      refine ⟨pass, hfits, fun h hsame => ?_⟩
      rw [← hcall, loadTo_self]
      simp only [safeStep, htoken hsame, if_neg hfield]
      rw [if_neg fun hall => hshort hall.2]
  · refine ⟨.fail ip', ⟨hlength, hlow, hhigh⟩, fun h hsame => ?_⟩
    simp only [safeStep, htoken hsame, hfield, hread (h.load .input ip 1) hsame]
    rfl
  · obtain ⟨pass, hfits, hcall⟩ := safeLiteralCopy_pass source false hrun (by omega) hoend
      (fun hall => hall.1 hfield) Bool.noConfusion
    refine ⟨pass, hfits, fun h hsame => ?_⟩
    rw [← hcall, loadTo, if_pos hlow]
    simp only [safeStep, htoken hsame, hfield, hread (h.load .input ip 1) hsame]
    rw [if_neg (by simp), if_pos trivial, if_neg (by omega), if_neg (by omega)]

theorem fastStep_pass (source : Mem) (hiend : ip < e.iend) (hoend : op ≤ e.oend - 64) :
    ∃ pass : LiteralPass, pass.Fits e source true ip op ∧ ∀ h, SameFrom e source ip h →
      fastStep e h ip op = pass.run e h (source ip).toNat ip op := by
  have htoken {h : Heap} (hsame : SameFrom e source ip h) : h.mem ip = source ip :=
    hsame ip (Int.le_refl ip) hiend
  have hlt := (source ip).toNat_lt
  rcases literalRun_cases source hiend with ⟨hfield, hrun⟩ |
    ⟨hfield, ip', hlength, hlow, hhigh, hread⟩ | ⟨hfield, addl, lit, hlow, hhigh, hrun, hread⟩
  · by_cases hshort : ip + 1 ≤ e.iend - (16 + 1)
    · refine ⟨.go (ip + 1) ((source ip).toNat / 16) .stripe .fast, ⟨hrun, by omega, by omega,
        ⟨by omega, by omega, by omega⟩, fun _ => ⟨by omega, LiteralCopy.noConfusion⟩,
        fun _ => ⟨hfield, by omega, by omega⟩, fun _ => rfl, fun _ _ => rfl, Entry.noConfusion,
        Entry.noConfusion, fun _ => ⟨rfl, by omega⟩⟩, fun h hsame => ?_⟩
      simp only [fastStep, htoken hsame, if_neg hfield, if_pos hshort, LiteralPass.run, loadTo_self]
      rfl
    · obtain ⟨pass, hfits, hcall⟩ := safeLiteralCopy_pass source true hrun (by omega)
        (show op ≤ e.oend by omega) (fun hall => hshort (by have := hall.2.1; omega))
        fun _ hall => hshort (hall.1 (by omega))
      refine ⟨pass, hfits, fun h hsame => ?_⟩
      rw [← hcall, loadTo_self]
      simp only [fastStep, htoken hsame, if_neg hfield, if_neg hshort]
  · refine ⟨.fail ip', ⟨hlength, hlow, hhigh⟩, fun h hsame => ?_⟩
    simp only [fastStep, htoken hsame, hfield, hread (h.load .input ip 1) hsame]
    rfl
  · by_cases hnear : op + ((15 + addl : Nat) : Int) > e.oend - 32 ∨
        lit + ((15 + addl : Nat) : Int) > e.iend - 32
    · obtain ⟨pass, hfits, hcall⟩ := safeLiteralCopy_pass source true hrun (by omega)
        (show op ≤ e.oend by omega) (fun hall => hall.1 hfield)
        fun _ hall => by have := hall.2 (by omega); omega
      refine ⟨pass, hfits, fun h hsame => ?_⟩
      rw [← hcall, loadTo, if_pos hlow]
      simp only [fastStep, htoken hsame, hfield, hread (h.load .input ip 1) hsame]
      rw [if_pos trivial, if_neg (by omega), if_neg (by omega), if_pos hnear]
    · refine ⟨.go lit (15 + addl) .wild32 .fast, ⟨hrun, by omega, by omega,
        ⟨by omega, by omega, by omega⟩, fun _ => ⟨by omega, LiteralCopy.noConfusion⟩,
        LiteralCopy.noConfusion, fun _ => rfl, fun _ _ => rfl, Entry.noConfusion,
        Entry.noConfusion, fun _ => ⟨rfl, by omega⟩⟩, fun h hsame => ?_⟩
      simp only [fastStep, htoken hsame, hfield, hread (h.load .input ip 1) hsame, LiteralPass.run,
        loadTo, if_pos hlow]
      rw [if_pos trivial, if_neg (by omega), if_neg (by omega), if_neg hnear]
      rfl

/-- The input decides what a pass does with its literals. -/
theorem exists_literalPass (source : Mem) {fast : Bool} (hiend : ip < e.iend) (hoend : op ≤ e.oend)
    (hfast : fast = true → op ≤ e.oend - 64) :
    ∃ pass : LiteralPass, pass.Fits e source fast ip op ∧ ∀ h, SameFrom e source ip h →
      step e fast h ip op = pass.run e h (source ip).toNat ip op := by
  cases fast with
  | false => exact safeStep_pass source hiend hoend
  | true => exact fastStep_pass source hiend (hfast rfl)

end

end Lz4.Decoder
