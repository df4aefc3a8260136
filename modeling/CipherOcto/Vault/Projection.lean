import CipherOcto.Determin.DqaExact
import CipherOcto.Vault.BalanceCache

/-!
# What a projection computes

`project` subtracts the two totals of the log as they are stored. It asks that they have one
scale and that the inflow is not the smaller one, and gives zero elsewhere, also for totals
that differ in nothing but the way they are written.

> `project_exact`: totals of one scale are subtracted exactly, a negative difference and two
> scales give zero, and nothing panics while the outflow is not negative.
-/

namespace CipherOcto.Vault

open Determin Machine

/-- What the log answers to the three reads of `project`. -/
structure Answers {L : Type} (port : TransferEventLog L) (chainId : ChainId) (vaultId : VaultId)
    (assetId : AssetId) (log : L) (inSum outSum : Dqa) (maxTs : Option Int64) : Prop where
  sumToVault : port.sumToVault log chainId vaultId assetId Int64.minValue = .ok inSum
  sumFromVault : port.sumFromVault log chainId vaultId assetId Int64.minValue = .ok outSum
  maxOccurredAtUnix : port.maxOccurredAtUnix log chainId vaultId assetId = .ok maxTs

section
variable {L : Type} {port : TransferEventLog L} {checks : Bool} {chainId : ChainId}
  {vaultId : VaultId} {assetId : AssetId} {log : L} {inSum outSum : Dqa} {maxTs : Option Int64}

/-- The reads done, the balance is all there is to compute. -/
theorem project_of_answers (h : Answers port chainId vaultId assetId log inSum outSum maxTs)
    (now : Int64) :
    project port checks chainId vaultId assetId log now =
      (if inSum.scale = outSum.scale ∧ outSum.value ≤ inSum.value then
        difference checks inSum outSum else .ok zeroDqa).map fun balance =>
          ⟨chainId, vaultId, assetId, balance, maxTs.or (some now), 0, .freshLogScan⟩ := by
  unfold project
  rw [h.sumToVault, h.sumFromVault, h.maxOccurredAtUnix]
  simp only [raise, Except.mapError, ok_bind]
  cases (if inSum.scale = outSum.scale ∧ outSum.value ≤ inSum.value then
    difference checks inSum outSum else .ok zeroDqa) <;> rfl

theorem difference_of_inI (hscale : inSum.scale ≤ 18) (h : InI 64 (inSum.value - outSum.value)) :
    difference checks inSum outSum =
      .ok ⟨inSum.value - outSum.value, inSum.scale, h, inSum.scale_lt⟩ := by
  have hguard : ¬inSum.scale > maxScale := not_lt.mpr hscale
  have hwrap : wrapI 64 (inSum.value - outSum.value) = inSum.value - outSum.value :=
    wrapI_of_inI h
  unfold difference
  rw [if_neg fun hchecks => hchecks.2 h]
  simp only [hwrap, Dqa.new]
  rw [if_neg hguard]

/-- An outflow that is not negative leaves the difference in the word. -/
theorem inI_difference (hle : outSum.value ≤ inSum.value) (hout : 0 ≤ outSum.value) :
    InI 64 (inSum.value - outSum.value) := by
  have hin := inSum.value_inI
  unfold InI minI maxI at hin ⊢
  omega

end

/-- **Totals of one scale are subtracted exactly**, and what is not subtracted is zero. -/
theorem project_exact {L : Type} (port : TransferEventLog L) (checks : Bool) (chainId : ChainId)
    (vaultId : VaultId) (assetId : AssetId) (log : L) (now : Int64) {inSum outSum : Dqa}
    {maxTs : Option Int64} (h : Answers port chainId vaultId assetId log inSum outSum maxTs)
    (hscale : inSum.scale ≤ 18) :
    (inSum.scale = outSum.scale → outSum.val ≤ inSum.val → InI 64 (inSum.value - outSum.value) →
      ∃ p, project port checks chainId vaultId assetId log now = .ok p ∧
        p.projectedBalance.val = inSum.val - outSum.val) ∧
    (inSum.scale ≠ outSum.scale ∨ inSum.val < outSum.val →
      ∃ p, project port checks chainId vaultId assetId log now = .ok p ∧
        p.projectedBalance = zeroDqa) ∧
    (0 ≤ outSum.value →
      ∃ p, project port checks chainId vaultId assetId log now = .ok p ∧
        (p.projectedBalance.val = 0 ↔ inSum.scale ≠ outSum.scale ∨ inSum.val ≤ outSum.val)) := by
  have hsub : inSum.scale = outSum.scale → ∀ hin : InI 64 (inSum.value - outSum.value),
      (⟨inSum.value - outSum.value, inSum.scale, hin, inSum.scale_lt⟩ : Dqa).val =
        inSum.val - outSum.val := by
    intro hsame hin
    unfold Dqa.val Scaled.val
    rw [← hsame, Int.cast_sub, sub_div]
  rw [project_of_answers h]
  refine ⟨fun hsame hle hin => ?_, fun hzero => ?_, fun hout => ?_⟩
  · rw [if_pos ⟨hsame, (val_le_iff_of_scale_eq hsame.symm).mp hle⟩, difference_of_inI hscale hin]
    exact ⟨_, rfl, hsub hsame hin⟩
  · rw [if_neg]
    · exact ⟨_, rfl, rfl⟩
    · rintro ⟨hsame, hle⟩
      rcases hzero with hdiffer | hlt
      · exact hdiffer hsame
      · exact absurd ((val_le_iff_of_scale_eq hsame.symm).mpr hle) (not_le.mpr hlt)
  · by_cases hcase : inSum.scale = outSum.scale ∧ outSum.value ≤ inSum.value
    · obtain ⟨hsame, hle⟩ := hcase
      have hin := inI_difference hle hout
      have hge := (val_le_iff_of_scale_eq hsame.symm).mpr hle
      rw [if_pos ⟨hsame, hle⟩, difference_of_inI hscale hin]
      refine ⟨_, rfl, ?_⟩
      rw [hsub hsame hin, sub_eq_zero, or_iff_right (not_not_intro hsame)]
      exact ⟨le_of_eq, fun h => le_antisymm h hge⟩
    · rw [if_neg hcase]
      refine ⟨_, rfl, iff_of_true (Scaled.val_zero 0) ?_⟩
      by_contra hboth
      obtain ⟨hsame, hlt⟩ := not_or.mp hboth
      have hsame := not_not.mp hsame
      exact hcase ⟨hsame, (val_le_iff_of_scale_eq hsame.symm).mp (not_le.mp hlt).le⟩

/-- A log that is its two totals. -/
def totals : TransferEventLog (Dqa × Dqa) where
  sumToVault log _ _ _ _ := .ok log.1
  sumFromVault log _ _ _ _ := .ok log.2
  maxOccurredAtUnix _ _ _ _ := .ok none
  insert log _ := (.ok (), log)

/-- Seven and a half come in, five go out. -/
theorem project_exact_sample :
    let log : Dqa × Dqa := ⟨⟨75, 1, by decide, by decide⟩, ⟨50, 1, by decide, by decide⟩⟩
    ∃ p, project totals true (id32 0) (id32 1) (id32 7) log 0 = .ok p ∧
      p.projectedBalance.val = log.1.val - log.2.val := by
  intro log
  obtain ⟨hsub, -⟩ := project_exact totals true (id32 0) (id32 1) (id32 7) log 0
    ⟨rfl, rfl, rfl⟩ (by decide)
  have hle : log.2.val ≤ log.1.val :=
    (val_le_iff_of_scale_eq (a := log.2) (b := log.1) rfl).mpr (by decide)
  exact hsub rfl hle (by decide)

/-- Seven and a half come in and nothing goes out, and that nothing has another scale. -/
theorem project_loses_inflow :
    let log : Dqa × Dqa := ⟨⟨75, 1, by decide, by decide⟩, zeroDqa⟩
    project totals true (id32 0) (id32 1) (id32 7) log 0 =
        .ok ⟨id32 0, id32 1, id32 7, zeroDqa, some 0, 0, .freshLogScan⟩ ∧
      log.1.Canonical ∧ log.2.Canonical ∧ zeroDqa.val ≠ log.1.val - log.2.val ∧
      0 ≤ log.1.val - log.2.val := by
  intro log
  have hlog : log.1.val - log.2.val = 75 / 10 := by
    show ((75 : Int) : ℚ) / 10 ^ 1 - ((0 : Int) : ℚ) / 10 ^ 0 = _
    norm_num
  have hzero : zeroDqa.val = 0 := Scaled.val_zero 0
  rw [hlog, hzero]
  exact ⟨rfl, by decide, by decide, by norm_num, by norm_num⟩

end CipherOcto.Vault
