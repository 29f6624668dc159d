import DaveOs.Boot.ControlLive
import DaveOs.Update.EngineRuns

/-!
# The fallback

A confirmed image that runs stays what it is while another one is installed beside it. Whatever the
engine of slot `r` is asked to do and wherever power is lost, the snapshot keeps the image of slot
`r`, no flash operation touches that slot, and the next boot on a flash that works finds an image
(`fallback_stays`).
-/

namespace DaveOs.Update

variable {cells : Cells}

open Boot Bytes Crash

/-- The snapshot still has the image of slot `r`, and the slot its content. -/
def Fallback (layout : Layout) (r : Nat) (image : Image) (cells₀ : Cells) (s : Snapshot)
    (cells : Cells) : Prop :=
  s.images.get r = image ∧ ∀ x, layout.InSlot r x → cells x = cells₀ x

theorem fallback_policy {layout : Layout} (hl : layout.Valid) {r : Nat} (hr : r < 2) {image : Image}
    (hstored : image.stored = image) (cells₀ : Cells) :
    Policy layout (1 - r) (Fallback layout r image cells₀) where
  metadata h heq := ⟨h.1, fun x hx => by rw [heq x (hx.not_metadata hl hr), h.2 x hx]⟩
  overwrite h _ heq := by
    refine ⟨h.1, fun x hx => ?_⟩
    rw [heq x (hx.other hl hr (by omega) (by omega)), h.2 x hx]
  invalidate {s cells} h := by
    refine ⟨?_, h.2⟩
    rw [Snapshot.following_get, Snapshot.mark_get_ne (by omega) hr (by omega), h.1, hstored]
  install {s cells new} h _ _ _ _ _ := by
    refine ⟨?_, h.2⟩
    rw [Snapshot.following_get, Snapshot.install_get_ne (by omega) hr (by omega), h.1, hstored]

/-- A flash of this layout whose operations succeed. -/
def workingMedium (layout : Layout) : Medium where
  layout
  May := Event.Works

/-- **The fallback stays.** Take a flash in order with a confirmed image in slot `r` that verifies,
and any history of the engine that runs from slot `r`. At the end of every power cycle, wherever it
was cut, a fresh journal loads a snapshot with the same image in slot `r`, no operation in progress
touches the slot, and a boot on a flash that works, before any deadline, returns ok with slot `r` or
with an image that verifies. -/
theorem fallback_stays (m : Medium) (hm : m.Regular) (cells : Cells) (first : Snapshot)
    (hload : freshLoad m.layout cells = some (.ok, first)) (hagree : Agree m.layout cells)
    (hsuited : Suited m.layout cells) (r : Nat) (hr : r < 2)
    (hconfirmed : (first.images.get r).state = .confirmed)
    (hverifies : Verifies m.layout cells r (first.images.get r))
    (past : List (EngineCycle m)) (now : EngineCycle m)
    (hruns : ∀ c ∈ past ++ [now], c.Within (· = 1 - r)) :
    (∃ s, freshLoad m.layout (engineHistory (past ++ [now]) cells) = some (.ok, s) ∧
      s.images.get r = first.images.get r ∧
      ((s.images.get (1 - r)).state ≠ .trial ∧ (s.images.get (1 - r)).state ≠ .pending ∨
        s.sequence ≠ 0xffffffffffffffff →
        ∀ (executing : Option Nat) (d : Device (workingMedium m.layout)), 2 ≤ executing.getD 2 →
        d.toMemory = { cells := engineHistory (past ++ [now]) cells } → d.Early →
        selectCalls m.layout ≤ d.life →
        ∃ sel j d', Control.select (Device.flash executing) m.layout {} d = (some (sel, j), d') ∧
          sel.status = .ok ∧ (sel.slot = r ∨ sel.slot = 1 - r ∧
            Verifies m.layout d.cells (1 - r) (s.images.get (1 - r))))) ∧
    ∀ op x, (now.device (engineHistory past cells)).pending = some op → op.Covers m.layout x →
      ¬m.layout.InSlot r x := by
  have hl := hm.layout
  have hsound := sound_of_freshLoad hm.valid hload hagree hsuited
  have hpol : ∀ i, i = 1 - r → Policy m.layout i (Fallback m.layout r (first.images.get r) cells) :=
    fun i hi => hi ▸ fallback_policy hl hr (Snapshot.image_stored hsound.stored_eq r) cells
  obtain ⟨s, hs, hfall⟩ := engineHistory_guarded hm hpol past
    (fun c hc => hruns c (List.mem_append_left _ hc)) hsound ⟨rfl, fun _ _ => rfl⟩
  have hguard := now.guarded_device hm hpol
    (hruns now (List.mem_append_right _ List.mem_cons_self)) hs hfall
  refine ⟨?_, fun op x hop hx hin => ?_⟩
  · obtain ⟨t, ht, himage, hslot⟩ := Guarded.powerOff hguard now.lost
    have hend : engineHistory (past ++ [now]) cells =
        (now.device (engineHistory past cells)).powerOff now.lost := by
      rw [engineHistory, List.foldl_append]
      rfl
    rw [hend]
    refine ⟨t, freshLoad_of_sound hm.valid ht, himage, ?_⟩
    intro hroom executing d hboot hd hearly hlife
    have hcells : d.cells = (now.device (engineHistory past cells)).powerOff now.lost := by rw [hd]
    have hworks : (workingMedium m.layout).Works := fun _ h => h
    have hwp := select_works (r := r) hworks hl hm.valid hm.ends hboot hr (by rw [hd])
      (by rw [hcells]; exact ht) Journal.resting_new hearly (by rw [himage]; exact hconfirmed)
      (by rw [himage, hcells]; exact hverifies.congr hslot) hroom.symm
    rcases hsel : Control.select (Device.flash executing) m.layout {} d with ⟨_ | ⟨sel, j⟩, d'⟩
    · exact absurd (hwp.of_none hsel) (Int.not_lt.mpr hlife)
    · obtain ⟨hok, hchoice⟩ := hwp.of_some hsel
      exact ⟨sel, j, d', rfl, hok, hchoice⟩
  · rcases hguard.inside op hop with hmeta | ⟨j, t, hj, hslot, ht, hfall', hinc⟩
    · exact hin.not_metadata hl hr (hmeta x hx)
    · have hne : j ≠ r := by
        rintro rfl
        rw [hfall'.1, hconfirmed] at hinc
        cases hinc
      exact (hslot x hx).other hl hj hr hne hin

theorem tinyImage_verifies {i : Nat} {n : UInt64} {state : ImageState} (hn : n ≠ 0)
    (h : cells.bytes ((tinyLayout 256 16).slot i) 1 = some [0x55]) :
    Verifies (tinyLayout 256 16) cells i (tinyImage n state) :=
  ⟨(by decide : (1 : UInt32) ≠ 0), (by decide : (1 : UInt32) ≤ 256), rfl, rfl, hn, [0x55], h, rfl⟩

/-- Power is lost before the engine's first tick is over. -/
def cutTick : EngineCycle (Medium.quiet (tinyLayout 256 16)) where
  executing := none
  runningSlot := 0
  inactivity := 30000000
  calls := [.enable true, .tick]
  clock := 0
  events := []
  lost := .tearing _ []

/-- A call at which all goes well. -/
def workingEvent (layout : Layout) :
    {e : Event (workingMedium layout).layout // (workingMedium layout).May e} :=
  ⟨{}, ⟨fun _ => rfl, rfl, .inl rfl⟩⟩

/-- A flash with power for a whole boot. -/
def bootDevice (layout : Layout) (cells : Cells) : Device (workingMedium layout) where
  cells
  events := .replicate (selectCalls layout) (workingEvent layout)

theorem bootDevice_early : (bootDevice (tinyLayout 256 16) cells).Early := by
  have : (bootDevice (tinyLayout 256 16) cells).horizon = 0 := by
    simp [Device.horizon, bootDevice, workingEvent]
  unfold Device.Early
  rw [this]
  exact (by decide : 0 < 0 + 1000000)

theorem fallback_stays_cutTick :
    ∃ sel j d', Control.select (Device.flash none) (tinyLayout 256 16) {}
        (bootDevice (tinyLayout 256 16) (engineHistory [cutTick] tinyFlash)) = (some (sel, j), d') ∧
      sel.status = .ok ∧ sel.slot ≤ 1 := by
  obtain ⟨⟨s, hs, -, hboot⟩, -⟩ := fallback_stays (Medium.quiet (tinyLayout 256 16))
    ⟨by decide, by decide, Medium.quiet_steady _⟩ tinyFlash newSnapshot
    (freshLoad_of_sound (by decide) tinyFlash_sound) tinyFlash_sound.same tinyFlash_sound.version
    0 (by decide) rfl
    (tinyImage_verifies (by decide) tinyFlash_byte) [] cutTick
    (fun c hc => by
      obtain rfl := List.mem_singleton.mp hc
      exact ⟨fun _ => rfl, fun call hcall => by
        simp only [cutTick, List.mem_cons, List.not_mem_nil, or_false] at hcall
        rcases hcall with rfl | rfl <;> rintro _ ⟨⟩⟩)
  have hsame : engineHistory [cutTick] tinyFlash = tinyFlash := rfl
  have hnew : s = newSnapshot := by
    have h : freshLoad (tinyLayout 256 16) (engineHistory [cutTick] tinyFlash) = some (.ok, s) := hs
    rw [hsame, freshLoad_of_sound (by decide) tinyFlash_sound] at h
    cases h
    rfl
  have hlife : (selectCalls (tinyLayout 256 16) : Int) ≤
      (bootDevice (tinyLayout 256 16) (engineHistory [cutTick] tinyFlash)).life :=
    Int.le_of_eq (life_replicate rfl (by decide)).symm
  obtain ⟨sel, j, d', hsel, hok, hslot⟩ := hboot (.inr (by rw [hnew]; decide)) none
    (bootDevice _ _) (by decide) rfl bootDevice_early hlife
  refine ⟨sel, j, d', hsel, hok, ?_⟩
  rcases hslot with h | ⟨h, -⟩ <;> omega

/-- A pending image, and no sequence number left to record its trial. -/
def lastFlash : Cells :=
  .holding [(0, encode (tinySnapshot 0xffffffffffffffff .confirmed .pending) 16), (512, [0x55]),
    (768, [0x55])]

/-- With a metadata read that fails once the confirmed image is on trial again; and with a journal
that has used up its sequence numbers a boot fails although the confirmed image verifies. -/
theorem fallback_lost :
    (freshLoad (tinyLayout 256 16) tinyFlash = some (.ok, newSnapshot) ∧
      (newSnapshot.images.get 0).state = .confirmed ∧
      Verifies (tinyLayout 256 16) tinyFlash 0 (newSnapshot.images.get 0) ∧
      freshLoad (tinyLayout 256 16) (engineHistory [blindBegin] tinyFlash) =
        some (.ok, oldSnapshot) ∧
      (oldSnapshot.images.get 0).state = .trial) ∧
    freshLoad (tinyLayout 256 16) lastFlash =
      some (.ok, tinySnapshot 0xffffffffffffffff .confirmed .pending) ∧
    Verifies (tinyLayout 256 16) lastFlash 0 (tinyImage 1 .confirmed) ∧
    ((Control.select (Device.flash none) (tinyLayout 256 16) {}
      (bootDevice (tinyLayout 256 16) lastFlash)).1.map (·.1.status) = some .counterExhausted) := by
  have hrun : freshLoad (tinyLayout 256 16) lastFlash =
      some (.ok, tinySnapshot 0xffffffffffffffff .confirmed .pending) ∧
      lastFlash.bytes 512 1 = some [0x55] ∧
      ((Control.select (Device.flash none) (tinyLayout 256 16) {}
        (bootDevice (tinyLayout 256 16) lastFlash)).1.map (·.1.status) =
          some .counterExhausted) := by decide +kernel
  refine ⟨⟨freshLoad_of_sound (by decide) tinyFlash_sound, rfl,
    tinyImage_verifies (by decide) tinyFlash_byte, blindBegin_leaves.1, rfl⟩, hrun.1,
    tinyImage_verifies (by decide) hrun.2.1, hrun.2.2⟩

end DaveOs.Update
