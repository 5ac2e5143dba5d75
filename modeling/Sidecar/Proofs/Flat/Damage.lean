import Sidecar.Proofs.Flat.Burst
import Sidecar.Proofs.Flat.RoundTrip

/-!
# A damaged file is refused

A file that is damaged does not load. What gives the damage away depends on its kind. A file that is
too long or too short contradicts its own header, or has none: the header fixes the length, and
neither a cut nor an appended end changes the first twenty bytes. A burst changes up to four
neighbouring bytes and no length, and may well rewrite the header into another one that is
consistent, so it is left to the checksum. Whether the window lies before the checksum, inside it, or
across its beginning makes no difference, because the register takes the stored checksum in as four
more bytes and then has the same value for every accepted file (`run_of_sealed`).
-/

set_option autoImplicit false

namespace Sidecar

namespace FlatIndex

variable {bytes bytes' : Bytes} {index index' : FlatIndex}

/-- What can happen to the bytes of a file. -/
inductive Damage : Bytes → Bytes → Prop
  | cut {bytes : Bytes} {n : Nat} (shorter : n < bytes.length) : Damage bytes (bytes.take n)
  | grown {bytes tail : Bytes} (longer : tail ≠ []) : Damage bytes (bytes ++ tail)
  | burst {before window window' after : Bytes} (length : window'.length = window.length)
      (narrow : window.length ≤ 4) (changed : window' ≠ window) :
      Damage (before ++ window ++ after) (before ++ window' ++ after)

/-! ## The length -/

theorem wordAt_take (bytes : Bytes) {n start width : Nat} (h : start + width ≤ n) :
    wordAt (bytes.take n) start width = wordAt bytes start width := by
  rw [wordAt, wordAt, List.drop_take, List.take_take, Nat.min_eq_left (by omega)]

/-- Accepted files with one header have one length. -/
theorem length_of_take (h : decode bytes = .ok index) (h' : decode bytes' = .ok index')
    (hhead : bytes'.take 20 = bytes.take 20) : bytes'.length = bytes.length := by
  obtain ⟨-, hheaded, hlength, -⟩ := decode_eq_ok_iff_headed.mp h
  obtain ⟨-, hheaded', hlength', -⟩ := decode_eq_ok_iff_headed.mp h'
  have hword : ∀ {start width : Nat}, start + width ≤ 20 →
      wordAt bytes' start width = wordAt bytes start width := fun hinside => by
    rw [← wordAt_take bytes' hinside, hhead, wordAt_take bytes hinside]
  have hdimension : index'.dimension = index.dimension := by
    rw [← hheaded.dimension, ← hheaded'.dimension, hword (by decide)]
  have hcount : index'.count = index.count := by
    rw [← hheaded.count, ← hheaded'.count, hword (by decide)]
  rw [hlength', hlength, hdimension, hcount]

theorem length_of_decode (h : decode bytes = .ok index) : 24 ≤ bytes.length := by
  obtain ⟨-, -, hlength, -⟩ := decode_eq_ok_iff_headed.mp h
  omega

/-! ## The checksum -/

theorem run_of_sealed (h : Sealed bytes) (hlength : 4 ≤ bytes.length) :
    Checksum.run 0xFFFFFFFF bytes = Checksum.residue := by
  rw [h.eq_close hlength]
  exact Checksum.run_crc32 _

theorem run_of_decode (h : decode bytes = .ok index) :
    Checksum.run 0xFFFFFFFF bytes = Checksum.residue := by
  obtain ⟨-, -, hlength, -, hsealed⟩ := decode_eq_ok_iff_headed.mp h
  exact run_of_sealed hsealed (by omega)

/-! ## Damage -/

theorem decode_damaged (h : decode bytes = .ok index) (hdamage : Damage bytes bytes') :
    decode bytes' ≠ .ok index' := by
  intro h'
  -- If both were accepted, a cut or grown file would have the length of the whole one, and a burst
  -- would leave the same register.
  have hlong := length_of_decode h'
  cases hdamage with
  | @cut _ n shorter =>
    rw [List.length_take] at hlong
    have hhead : (bytes.take n).take 20 = bytes.take 20 := by
      rw [List.take_take, Nat.min_eq_left (by omega)]
    have hlength := length_of_take h h' hhead
    rw [List.length_take] at hlength
    omega
  | @grown _ tail longer =>
    have hwhole := length_of_decode h
    have hhead : (bytes ++ tail).take 20 = bytes.take 20 :=
      List.take_append_of_le_length (by omega)
    have hlength := length_of_take h h' hhead
    rw [List.length_append] at hlength
    exact longer (List.eq_nil_of_length_eq_zero (by omega))
  | burst length narrow changed =>
    exact changed (Checksum.burst_seen length narrow ((run_of_decode h').trans (run_of_decode h).symm))

variable {files files' : FileTree} {path path' : Path}

/-- **A file that was accepted is refused after any damage.** The damaged file may stand anywhere. -/
theorem load_damaged (hload : load files path = .ok index) (hbytes : files.map path = .ok bytes)
    (hdamage : Damage bytes bytes') (hbytes' : files'.map path' = .ok bytes') :
    ∃ fault : LoadFault, load files' path' = .error (.loadFailed path'.text fault.reason) := by
  obtain ⟨_, hmap, hdecode⟩ := load_eq_ok_iff_map.mp hload
  cases hbytes.symm.trans hmap
  cases hdecode' : decode bytes' with
  | ok index' => exact absurd hdecode' (decode_damaged hdecode hdamage)
  | error fault => exact ⟨fault, by rw [load, hbytes']; simp only [hdecode']⟩

/-- A file of one vector, cut, lengthened, and changed across the beginning of its checksum. -/
theorem load_of_damaged_file :
    let file (content : Bytes) : FileTree :=
      { workingDirectory := ["w"], nodes := [(["w"], .directory), (["w", "x"], .file content)] }
    let bytes := encode [7] [[⟨0x3f800000⟩]]
    let changed := bytes.take 26 ++ [0, 0, 0, 0] ++ bytes.drop 30
    (∃ index, load (file bytes) ⟨"x"⟩ = .ok index) ∧
      (∃ fault : LoadFault, load (file (bytes.take 31)) ⟨"x"⟩ = .error (.loadFailed "x" fault.reason)) ∧
      (∃ fault : LoadFault, load (file (bytes ++ [0])) ⟨"x"⟩ = .error (.loadFailed "x" fault.reason)) ∧
      ∃ fault : LoadFault, load (file changed) ⟨"x"⟩ = .error (.loadFailed "x" fault.reason) := by
  intro file bytes changed
  have hload : load (file bytes) ⟨"x"⟩ = .ok ⟨bytes, 1, 1⟩ := by decide +kernel
  have hmap : (file bytes).map ⟨"x"⟩ = .ok bytes := by decide +kernel
  have hburst : Damage bytes changed := by
    have hbytes : bytes = bytes.take 26 ++ (bytes.drop 26).take 4 ++ bytes.drop 30 := by
      decide +kernel
    rw [hbytes]
    exact .burst (by decide +kernel) (by decide +kernel) (by decide +kernel)
  have hcut : Damage bytes (bytes.take 31) := .cut (by decide +kernel)
  have hgrown : Damage bytes (bytes ++ [0]) := .grown (by decide)
  refine ⟨⟨_, hload⟩, ?_, ?_, ?_⟩
  · exact load_damaged hload hmap hcut (by decide +kernel)
  · exact load_damaged hload hmap hgrown (by decide +kernel)
  · exact load_damaged hload hmap hburst (by decide +kernel)

end FlatIndex

end Sidecar
