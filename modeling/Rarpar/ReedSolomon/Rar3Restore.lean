import Rarpar.ReedSolomon.Rar3Decode

namespace Rarpar
open GfSymbol List

namespace Rar3RsCoder

/-- The coders that calls can leave: a new one, and any after a decoding call. -/
inductive Reachable (parSize : Nat) : Rar3RsCoder → Prop
  | fresh {coder} : new parSize = some coder → Reachable parSize coder
  | decoded {coder data erasures} : Reachable parSize coder → Reachable parSize (coder.decode data erasures).1

/-- The cached locator always belongs to the erasures and the length stored beside it. -/
structure Consistent (parSize : Nat) (coder : Rar3RsCoder) : Prop where
  positive : 0 < parSize
  size : coder.parSize = parSize
  generated : coder.gxPol = pnInit parSize
  cached : ∀ locator, coder.locator = some locator →
    locator = buildLocator parSize locator.dataSize locator.erasures

variable {parSize : Nat} {coder : Rar3RsCoder}

theorem Consistent.currentLocator_eq (consistent : Consistent parSize coder) (dataSize : Nat) (erasures : List Nat) :
    coder.currentLocator dataSize erasures = buildLocator parSize dataSize erasures := by
  unfold currentLocator
  rw [consistent.size]
  split
  · rfl
  · rename_i locator stored
    split_ifs with same
    · rfl
    · push Not at same
      have built := consistent.cached locator stored
      rw [same.1, same.2] at built
      exact built

theorem Consistent.decode (consistent : Consistent parSize coder) (data : List Byte) (erasures : List Nat) :
    Consistent parSize (coder.decode data erasures).1 := by
  have current := consistent.currentLocator_eq data.length erasures
  have kept : Consistent parSize { coder with locator := some (coder.currentLocator data.length erasures) } := by
    refine ⟨consistent.positive, consistent.size, consistent.generated, ?_⟩
    intro locator stored
    cases Option.some.inj stored
    rw [current]
    rfl
  unfold Rar3RsCoder.decode
  dsimp only
  split
  · exact consistent
  · split
    · exact consistent
    · split
      · exact kept
      · exact kept

theorem new_eq_some (positive : 1 ≤ parSize) (bound : parSize ≤ 255) :
    new parSize = some ⟨parSize, pnInit parSize, none⟩ := by
  rw [new, if_neg]
  simp only [maxPar]
  omega

theorem Reachable.consistent (reach : Reachable parSize coder) : Consistent parSize coder := by
  induction reach with
  | fresh made =>
    unfold new at made
    split_ifs at made
    · rename_i valid
      cases Option.some.inj made
      exact ⟨by omega, rfl, rfl, by simp⟩
  | decoded _ ih => exact ih.decode _ _

theorem Consistent.damaged (consistent : Consistent parSize coder) {message : List Byte}
    (bound : message.length + parSize ≤ 255) {erasures : List Nat} (nodup : erasures.Nodup)
    (few : erasures.length ≤ parSize) (inside : ∀ p ∈ erasures, p < message.length + parSize) {block : List Byte}
    (length : block.length = message.length + parSize)
    (kept : ∀ p, p ∉ erasures → block[p]? = (message ++ coder.encode message)[p]?) :
    Damaged coder.parSize erasures (message ++ coder.encode message) block := by
  have size : (message ++ coder.encode message).length = message.length + parSize := by
    simp [encode, consistent.size]
  have positive := consistent.positive
  have generated : coder.gxPol = pnInit coder.parSize := by rw [consistent.size, consistent.generated]
  refine ⟨nodup, by rwa [consistent.size], by omega, by rwa [size], by rw [size, length], ?_, kept, ?_⟩
  · rwa [size]
  · intro i below
    exact syndrome_codeword generated message below

/-- Within its capacity the decoder restores every codeword, with one exception: a
damaged block of 255 symbols whose erasures spend every parity symbol and include the
last position. There the last position is found as two roots, and the block is refused
unchanged. -/
theorem decode_restores_codeword (positive : 1 ≤ parSize) (small : parSize ≤ 255) :
    (∃ coder, new parSize = some coder) ∧
    ∀ (coder : Rar3RsCoder) (message : List Byte) (erasures : List Nat) (block : List Byte),
      Reachable parSize coder → message.length + parSize ≤ 255 → erasures.Nodup → erasures.length ≤ parSize →
      (∀ p ∈ erasures, p < message.length + parSize) → block.length = message.length + parSize →
      (∀ p, p ∉ erasures → block[p]? = (message ++ coder.encode message)[p]?) →
      (coder.decode block erasures).2 =
        if block ≠ message ++ coder.encode message ∧ block.length = 255 ∧ 254 ∈ erasures ∧
            erasures.length = parSize then (block, false)
        else (message ++ coder.encode message, true) := by
  refine ⟨⟨_, new_eq_some positive small⟩, ?_⟩
  intro coder message erasures block reach bound nodup few inside length kept
  have consistent := reach.consistent
  have damaged := consistent.damaged bound nodup few inside length kept
  have current := consistent.currentLocator_eq block.length erasures
  rw [← consistent.size] at current
  have full (last : 254 ∈ erasures) : block.length = 255 := by
    have below := inside 254 last
    omega
  rw [damaged.decode_eq current, consistent.size]
  refine if_congr ?_ rfl rfl
  constructor
  · rintro ⟨changed, last, spent⟩
    exact ⟨changed, full last, last, spent⟩
  · rintro ⟨changed, _, last, spent⟩
    exact ⟨changed, last, spent⟩

theorem decode_restores_two_erasures : ∃ coder, new 2 = some coder ∧
    (let codeword := [.ofNat 1, .ofNat 2, .ofNat 3] ++ coder.encode [.ofNat 1, .ofNat 2, .ofNat 3]
    (coder.decode ((codeword.set 1 (.ofNat 9)).set 4 (.ofNat 7)) [1, 4]).2 = (codeword, true)) := by
  obtain ⟨⟨coder, made⟩, restores⟩ := decode_restores_codeword (show 1 ≤ 2 by decide) (by decide)
  refine ⟨coder, made, ?_⟩
  intro codeword
  have size : codeword.length = 5 := by simp [codeword, encode, (Reachable.fresh made).consistent.size]
  have verdict := restores coder [.ofNat 1, .ofNat 2, .ofNat 3] [1, 4]
    ((codeword.set 1 (.ofNat 9)).set 4 (.ofNat 7)) (.fresh made) (by decide) (by decide) (by decide) (by decide)
    (by simp [size]) (by
      intro p outside
      simp only [mem_cons, not_mem_nil, or_false, not_or] at outside
      rw [getElem?_set_ne (Ne.symm outside.2), getElem?_set_ne (Ne.symm outside.1)])
  rwa [if_neg (by simp [size])] at verdict

theorem decode_last_erasure {message : List Byte} (consistent : Consistent 1 coder) (length : message.length = 254) :
    let codeword := message ++ coder.encode message
    let block := codeword.modify 254 (· + 1)
    (coder.decode block [254]).2 = (block, false) := by
  intro codeword block
  have size : codeword.length = 255 := by simp [codeword, encode, length, consistent.size]
  have kept (p : Nat) (outside : p ∉ [254]) : block[p]? = codeword[p]? := by
    have other : 254 ≠ p := by simpa [eq_comm] using outside
    simp [block, other]
  have damaged : Damaged coder.parSize [254] codeword block :=
    consistent.damaged (by omega) (by simp) (by simp) (by simp [length]) (by simp [block, size, length]) kept
  have changed : block ≠ codeword := by
    intro same
    have entry := congrArg (·[254]?) same
    have inside : 254 < codeword.length := by omega
    simp only [block, getElem?_modify, getElem?_eq_getElem inside] at entry
    simp at entry
  have current := consistent.currentLocator_eq block.length [254]
  rw [← consistent.size] at current
  rw [damaged.decode_eq current, if_pos ⟨changed, by simp, by simp [consistent.size]⟩]

/-- A full block with its single parity symbol spent on the last position is refused. -/
theorem decode_refuses_full_block : ∃ coder, new 1 = some coder ∧
    (let codeword := List.replicate 254 0 ++ coder.encode (List.replicate 254 0)
    let block := codeword.modify 254 (· + 1)
    (coder.decode block [254]).2 = (block, false) ∧ (coder.decode block [254]).2 ≠ (codeword, true)) := by
  have fresh := new_eq_some (le_refl 1) (by decide)
  have verdict := decode_last_erasure (Reachable.fresh fresh).consistent (length_replicate (n := 254) (a := 0))
  refine ⟨_, fresh, verdict, ?_⟩
  intro restored
  have flags := congrArg Prod.snd (verdict.symm.trans restored)
  cases flags

end Rar3RsCoder
end Rarpar
