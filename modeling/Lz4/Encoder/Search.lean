import Lz4.Encoder.Generic

/-!
# The search for a match

With an acceleration of at least one, every pass of the search goes forward, and the
counter that controls the step does not overflow before the end of the input is reached
(`Accelerates`).  The search then ends, and what it returns was found by one lookup in a
table that only knows earlier positions (`search_ends`).
-/

namespace Lz4.Encoder

open FlatMemory Machine

/-- The acceleration is positive, and small enough for the 32-bit counter of the search. -/
def Env.Accelerates (e : Env) : Prop :=
  1 ≤ e.acceleration ∧ 64 * e.acceleration + e.inputSize < 2 ^ 31

theorem tryMatch_ip {e : Env} {m : Mem} {table : Table} {h : Nat} {ip : Int} {found : Found}
    (hfound : tryMatch e m table h ip = some found) : found.ip = ip := by
  unfold tryMatch at hfound
  dsimp only at hfound
  split at hfound
  · obtain rfl := Option.some.inj hfound
    rfl
  · exact absurd hfound (by simp)

theorem wrap32_eq {x : Int} (hlow : -2 ^ 31 ≤ x) (hhigh : x < 2 ^ 31) : wrap32 x = x := by
  unfold wrap32
  omega

/-- What a search that started at `ip` returns, if `Q table p` says of a table that it
knows positions before `p` only. -/
def SearchEnds (e : Env) (m : Mem) (Q : Table → Int → Prop) (ip : Int) :
    Option Found × Table → Prop
  | (none, table) => ∃ p, ip ≤ p ∧ p ≤ e.mflimitPlusOne ∧ Q table p
  | (some found, table) => ip ≤ found.ip ∧ found.ip < e.mflimitPlusOne ∧
      ∃ before h, Q before found.ip ∧ tryMatch e m before h found.ip = some found ∧
        table = putOnHash e before h found.ip

theorem search_ends {e : Env} (accelerates : e.Accelerates) (m : Mem) {Q : Table → Int → Prop}
    (hput : ∀ {table h p p'}, Q table p → e.source ≤ p → p < p' → p < e.mflimitPlusOne →
      Q (putOnHash e table h p) p')
    (table : Table) {ip : Int} (forwardH : Nat) (hip : e.source < ip)
    (hlimit : ip ≤ e.mflimitPlusOne) (hQ : Q table ip) :
    ∃ r, search e m table ip forwardH = some r ∧ SearchEnds e m Q ip r := by
  obtain ⟨hpos, hcounter⟩ := accelerates
  have hiend : e.mflimitPlusOne = e.source + e.inputSize - 12 + 1 := rfl
  refine iterate_ends (fun s => ip ≤ s.forwardIp ∧
      s.forwardIp ≤ e.mflimitPlusOne ∧ 1 ≤ s.step ∧ 64 ≤ s.searchMatchNb ∧
      s.searchMatchNb ≤ 64 * e.acceleration + (s.forwardIp - ip) ∧ Q s.table s.forwardIp)
    (fun s => (e.mflimitPlusOne - s.forwardIp).toNat) ?_ ?_ ?_
  · rintro ⟨forwardIp, step, nb, forwardH, table⟩ ⟨hlow, hhigh, hstep, hnb, hcount, hQ⟩
    refine ⟨_, rfl, ?_⟩
    dsimp only at hlow hhigh hstep hnb hcount hQ
    unfold searchStep
    dsimp only
    split
    · exact ⟨forwardIp, hlow, hhigh, hQ⟩
    · split
      · -- a match
        rename_i found hfound
        have heq := tryMatch_ip hfound
        exact ⟨by omega, by omega, table, forwardH, heq ▸ hQ, heq ▸ hfound, by rw [heq]⟩
      · -- the next position
        have hwrap : wrap32 (nb + 1) = nb + 1 := wrap32_eq (by omega) (by omega)
        refine ⟨⟨by dsimp only; omega, by dsimp only; omega, by dsimp only; omega,
          by dsimp only; omega, by dsimp only; omega, ?_⟩, ?_⟩
        · exact hput hQ (by omega) (by dsimp only; omega) (by omega)
        · dsimp only
          omega
  · have hwrap : wrap32 (e.acceleration * 2 ^ 6) = e.acceleration * 2 ^ 6 :=
      wrap32_eq (by omega) (by omega)
    exact ⟨Int.le_refl _, hlimit, Int.le_refl 1, by dsimp only; omega, by dsimp only; omega, hQ⟩
  · dsimp only
    omega

end Lz4.Encoder
