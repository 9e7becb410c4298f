import MpOlsr.Lib.ReplayWindow
import MpOlsr.Lib.Simulation
import MpOlsr.Plugin.Tables

/-!
# The duplicate set

`duplicate_set.c` of olsrd: for every originator the newest sequence number of its messages, and an array of bits for
the last 32 numbers.  As long as the numbers of an originator stay within one half of their range the array is as good
as an unbounded memory (`DupEntry.Tracks`), and no message but the first one of its originator is processed twice
(`processed_once`): the entry of an originator is created without the bit of its first message.  Where the numbers begin
again at zero they are too low, and messages are dropped until the entry starts again.
-/

namespace MpOlsr

/-- The entry of an originator. -/
structure DupEntry where
  seqnr : BitVec 16
  too_low_counter : BitVec 16
  array : BitVec 32
  valid_until : ℤ

/-- The entries, by their originators. -/
abbrev DuplicateSet := OlsrIpAddr → Option DupEntry

/-- The distance of a sequence number from the newest one. -/
def seqDiff (seqnr newest : BitVec 16) : ℤ :=
  let diff : ℤ := seqnr.toNat - newest.toNat
  if 2 ^ 15 < diff then diff - 2 ^ 16 else diff

namespace DupEntry

def olsr_create_duplicate_entry (seqnr : BitVec 16) (valid_until : ℤ) : DupEntry := ⟨seqnr, 0, 0, valid_until⟩

/-- What a message does to the entry of its originator, and whether it is processed. -/
def receive (entry : DupEntry) (seqnr : BitVec 16) : DupEntry × Bool :=
  let diff := seqDiff seqnr entry.seqnr
  if diff < -31 then
    let too_low_counter := entry.too_low_counter + 1
    if 16 < too_low_counter.toNat then ({ entry with too_low_counter := 0, seqnr := seqnr, array := 1 }, true)
    else ({ entry with too_low_counter := too_low_counter }, false)
  else
    let entry := { entry with too_low_counter := 0 }
    if diff ≤ 0 then
      let bitmask := 1#32 <<< (-diff).toNat
      if entry.array &&& bitmask ≠ 0 then (entry, false) else ({ entry with array := entry.array ||| bitmask }, true)
    else
      let array := if diff < 32 then entry.array <<< diff.toNat else 0
      ({ entry with array := array ||| 1, seqnr := seqnr }, true)

end DupEntry

/-- `TIMED_OUT`, on the difference as an `int` -/
def timedOut (now s : ℤ) : Bool := (BitVec.ofInt 32 (s - now)).toInt < 0

/-- Whether a message that arrives at the time `now` is processed; `vtime` is `DUPLICATE_VTIME` in ticks. -/
def olsr_shall_process_message (vtime now : ℤ) (ip : OlsrIpAddr) (seqnr : BitVec 16) (s : DuplicateSet) :
    DuplicateSet × Bool :=
  let valid_until := now + vtime
  match s ip with
  | none => (Function.update s ip (some (.olsr_create_duplicate_entry seqnr valid_until)), true)
  | some entry =>
    let entry := if entry.valid_until < valid_until then { entry with valid_until := valid_until } else entry
    let (entry, processed) := entry.receive seqnr
    (Function.update s ip (some entry), processed)

def olsr_cleanup_duplicate_entry (now : ℤ) (s : DuplicateSet) : DuplicateSet := fun ip =>
  (s ip).filter fun entry => !timedOut now entry.valid_until

/-- What happens to the duplicate set: a message arrives, or the timer runs out. -/
inductive DupEvent where
  | message (now : ℤ) (ip : OlsrIpAddr) (seqnr : BitVec 16)
  | cleanup (now : ℤ)

/-- The duplicate set, with the messages processed so far. -/
structure Duplicates where
  set : DuplicateSet
  processed : List (OlsrIpAddr × BitVec 16)

namespace Duplicates

def init : Duplicates := ⟨fun _ => none, []⟩

def step (vtime : ℤ) (d : Duplicates) : DupEvent → Duplicates
  | .message now ip seqnr =>
    let (set, processed) := olsr_shall_process_message vtime now ip seqnr d.set
    ⟨set, if processed then d.processed ++ [(ip, seqnr)] else d.processed⟩
  | .cleanup now => { d with set := olsr_cleanup_duplicate_entry now d.set }

def run (vtime : ℤ) (es : List DupEvent) : Duplicates := es.foldl (step vtime) init

/-- The numbers of the messages of an originator that were processed. -/
def numbers (d : Duplicates) (ip : OlsrIpAddr) : List (BitVec 16) :=
  (d.processed.filter fun p => p.1 == ip).map Prod.snd

end Duplicates

/-! ### The array of bits -/

theorem and_one_shiftLeft_eq_zero_iff {x : BitVec 32} {k : ℕ} (hk : k < 32) :
    x &&& 1#32 <<< k = 0 ↔ x.getLsbD k = false := by
  constructor
  · intro h
    have hbit := congrArg (fun y : BitVec 32 => y.getLsbD k) h
    simpa [BitVec.getLsbD_and, BitVec.getLsbD_shiftLeft, BitVec.getLsbD_one, hk] using hbit
  · intro h
    apply BitVec.eq_of_getLsbD_eq
    intro i hi
    rw [BitVec.getLsbD_and, BitVec.getLsbD_shiftLeft, BitVec.getLsbD_one]
    by_cases hik : i = k
    · subst hik
      simp [h]
    · have hne : i < k ∨ i - k ≠ 0 := by omega
      rcases hne with hlt | hne
      · simp [hlt]
      · simp [hne]

theorem getLsbD_one_shiftLeft {k i : ℕ} (hi : i < 32) : (1#32 <<< k).getLsbD i = decide (i = k) := by
  rw [BitVec.getLsbD_shiftLeft, BitVec.getLsbD_one]
  rcases lt_trichotomy i k with hlt | rfl | hgt
  · simp [hlt, hlt.ne]
  · simp [hi]
  · have hsub : i - k ≠ 0 := by omega
    simp [hsub, hgt.ne']

namespace DupEntry

/-- The entry holds the last 32 numbers of the window. -/
structure Tracks (W : ReplayWindow.Window) (e : DupEntry) : Prop where
  wf : ReplayWindow.WF 16 W
  newest : e.seqnr.toNat = W.newest
  low : e.too_low_counter.toNat = W.low
  array : ∀ k < 32, e.array.getLsbD k = (decide (k ≤ W.newest) && W.accepted.contains (W.newest - k))

variable {W : ReplayWindow.Window} {e : DupEntry} {seqnr : BitVec 16} {base : ℕ}

/-- The number is in the half of the range that begins at `base`. -/
def inHalf (base : ℕ) (seqnr : BitVec 16) : Bool := base ≤ seqnr.toNat && seqnr.toNat ≤ base + 2 ^ 15

theorem seqDiff_eq {newest : BitVec 16} (h : inHalf base seqnr = true) (h' : inHalf base newest = true) :
    seqDiff seqnr newest = seqnr.toNat - newest.toNat := by
  rw [inHalf, Bool.and_eq_true, decide_eq_true_eq, decide_eq_true_eq] at h h'
  rw [seqDiff, if_neg]
  omega

theorem tracks_create (seqnr : BitVec 16) (valid_until : ℤ) :
    (olsr_create_duplicate_entry seqnr valid_until).Tracks ⟨seqnr.toNat, [], 0⟩ where
  wf := ⟨List.nodup_nil, fun _ hm => absurd hm List.not_mem_nil, Nat.zero_le _⟩
  newest := rfl
  low := rfl
  array k hk := by simp [olsr_create_duplicate_entry]

/-- One more number that is too old. -/
theorem Tracks.tooOld (h : e.Tracks W) (hold : ReplayWindow.tooOld 32 W seqnr.toNat = true)
    (hdiff : seqDiff seqnr e.seqnr < -31) :
    (e.receive seqnr).2 = (ReplayWindow.receive 32 16 W seqnr.toNat).2 ∧
      (e.receive seqnr).1.Tracks (ReplayWindow.receive 32 16 W seqnr.toNat).1 := by
  have hle := h.wf.low_le
  have hcounter : (e.too_low_counter + 1).toNat = W.low + 1 := by
    have hone : (1 : BitVec 16).toNat = 1 := rfl
    rw [BitVec.toNat_add, h.low, hone]
    exact Nat.mod_eq_of_lt (by omega)
  rw [receive, ReplayWindow.receive]
  dsimp only
  rw [if_pos hdiff, hcounter, if_pos hold]
  by_cases hlimit : 16 ≤ W.low
  · rw [if_pos (show 16 < W.low + 1 by omega), if_pos hlimit]
    refine ⟨rfl, ReplayWindow.wf_start, rfl, rfl, fun k hk => ?_⟩
    have hbit : (1 : BitVec 32).getLsbD k = decide (k = 0) := by simp
    rw [hbit, ReplayWindow.start, Bool.eq_iff_iff, decide_eq_true_eq, Bool.and_eq_true, decide_eq_true_eq,
      List.contains_iff_mem, List.mem_singleton]
    dsimp only
    omega
  · rw [if_neg (show ¬ 16 < W.low + 1 by omega), if_neg hlimit]
    exact ⟨rfl, ⟨h.wf.nodup, h.wf.le_newest, by dsimp only; omega⟩, h.newest, hcounter, h.array⟩

/-- A number that is not newer than the newest one. -/
theorem Tracks.recent (h : e.Tracks W) (hle : seqnr.toNat ≤ W.newest) (hrecent : W.newest < seqnr.toNat + 32)
    (hdiff : seqDiff seqnr e.seqnr = (seqnr.toNat : ℤ) - W.newest) :
    (e.receive seqnr).2 = (ReplayWindow.receive 32 16 W seqnr.toNat).2 ∧
      (e.receive seqnr).1.Tracks (ReplayWindow.receive 32 16 W seqnr.toNat).1 := by
  have hneg : (-((seqnr.toNat : ℤ) - W.newest)).toNat = W.newest - seqnr.toNat := by omega
  have hk : W.newest - seqnr.toNat < 32 := by omega
  have hback : W.newest - (W.newest - seqnr.toNat) = seqnr.toNat := by omega
  have hbit := h.array _ hk
  rw [hback, decide_eq_true (Nat.sub_le _ _), Bool.true_and] at hbit
  have hnew : ¬ ReplayWindow.tooOld 32 W seqnr.toNat = true := by
    rw [ReplayWindow.tooOld, decide_eq_true_eq]
    omega
  rw [receive, ReplayWindow.receive]
  dsimp only
  rw [hdiff, if_neg (by omega), if_pos (by omega), hneg, if_neg hnew]
  have hmask := and_one_shiftLeft_eq_zero_iff (x := e.array) hk
  rw [hbit] at hmask
  cases hseen : W.accepted.contains seqnr.toNat with
  | true =>
    rw [if_pos (by rw [ne_eq, hmask, hseen]; decide), if_pos rfl]
    exact ⟨rfl, ⟨h.wf.nodup, h.wf.le_newest, Nat.zero_le _⟩, h.newest, rfl, h.array⟩
  | false =>
    rw [if_neg (by rw [ne_eq, hmask, hseen]; decide), if_neg Bool.false_ne_true]
    have hwf := h.wf.receive (w := 32) (m := seqnr.toNat)
    rw [ReplayWindow.receive, if_neg hnew, if_neg (by rw [hseen]; decide)] at hwf
    refine ⟨rfl, hwf, ?_, rfl, fun k hk' => ?_⟩
    · rw [h.newest]
      exact (max_eq_left hle).symm
    · dsimp only
      rw [BitVec.getLsbD_or, h.array k hk', getLsbD_one_shiftLeft hk', max_eq_left hle, Bool.eq_iff_iff]
      simp only [Bool.or_eq_true, Bool.and_eq_true, decide_eq_true_eq, List.contains_iff_mem, List.mem_cons]
      constructor
      · rintro (⟨hkn, hmem⟩ | rfl)
        · exact ⟨hkn, Or.inr hmem⟩
        · exact ⟨Nat.sub_le _ _, Or.inl hback⟩
      · rintro ⟨hkn, heq | hmem⟩
        · exact Or.inr (by omega)
        · exact Or.inl ⟨hkn, hmem⟩

/-- A number that is newer than all others. -/
theorem Tracks.newer (h : e.Tracks W) (hlt : W.newest < seqnr.toNat)
    (hdiff : seqDiff seqnr e.seqnr = (seqnr.toNat : ℤ) - W.newest) :
    (e.receive seqnr).2 = (ReplayWindow.receive 32 16 W seqnr.toNat).2 ∧
      (e.receive seqnr).1.Tracks (ReplayWindow.receive 32 16 W seqnr.toNat).1 := by
  have hfresh : ¬ W.accepted.contains seqnr.toNat = true := by
    rw [List.contains_iff_mem]
    exact fun hmem => absurd (h.wf.le_newest _ hmem) (by omega)
  have hnew : ¬ ReplayWindow.tooOld 32 W seqnr.toNat = true := by
    rw [ReplayWindow.tooOld, decide_eq_true_eq]
    omega
  have hwf := h.wf.receive (w := 32) (m := seqnr.toNat)
  rw [ReplayWindow.receive, if_neg hnew, if_neg hfresh] at hwf
  have hnat : ((seqnr.toNat : ℤ) - W.newest).toNat = seqnr.toNat - W.newest := by omega
  rw [receive, ReplayWindow.receive]
  dsimp only
  rw [hdiff, if_neg (by omega), if_neg (by omega), if_neg hnew, if_neg hfresh, hnat]
  refine ⟨rfl, hwf, (max_eq_right hlt.le).symm, rfl, fun k hk => ?_⟩
  have hone : (1 : BitVec 32).getLsbD k = decide (k = 0) := by simp
  -- the bits of the old numbers move up, and leave the array at its end
  have hold : (if ((seqnr.toNat : ℤ) - W.newest) < 32 then e.array <<< (seqnr.toNat - W.newest) else 0).getLsbD k =
      (decide (seqnr.toNat ≤ W.newest + k) && decide (k ≤ seqnr.toNat) &&
        W.accepted.contains (seqnr.toNat - k)) := by
    split
    · rw [BitVec.getLsbD_shiftLeft, decide_eq_true hk, Bool.true_and]
      by_cases hshift : k < seqnr.toNat - W.newest
      · have hfar : ¬ seqnr.toNat ≤ W.newest + k := by omega
        simp [hshift, hfar]
      · have hnear : seqnr.toNat ≤ W.newest + k := by omega
        have hiff : decide (k - (seqnr.toNat - W.newest) ≤ W.newest) = decide (k ≤ seqnr.toNat) :=
          decide_eq_decide.2 (by omega)
        have hback : W.newest - (k - (seqnr.toNat - W.newest)) = seqnr.toNat - k := by omega
        rw [h.array _ (by omega), decide_eq_false hshift, decide_eq_true hnear, hback, hiff]
        simp
    · have hfar : ¬ seqnr.toNat ≤ W.newest + k := by omega
      simp [hfar]
  dsimp only
  rw [BitVec.getLsbD_or, hold, hone, max_eq_right hlt.le, Bool.eq_iff_iff]
  simp only [Bool.or_eq_true, Bool.and_eq_true, decide_eq_true_eq, List.contains_iff_mem, List.mem_cons]
  constructor
  · rintro (⟨⟨-, hkn⟩, hmem⟩ | rfl)
    · exact ⟨hkn, Or.inr hmem⟩
    · exact ⟨Nat.zero_le _, Or.inl (Nat.sub_zero _)⟩
  · rintro ⟨hkn, heq | hmem⟩
    · exact Or.inr (by omega)
    · have hle := h.wf.le_newest _ hmem
      exact Or.inl ⟨⟨by omega, hkn⟩, hmem⟩

/-- In one half of the range of the numbers the entry decides as a window with an unbounded memory. -/
theorem Tracks.receive (h : e.Tracks W) (hnewest : inHalf base e.seqnr = true) (hseqnr : inHalf base seqnr = true) :
    (e.receive seqnr).2 = (ReplayWindow.receive 32 16 W seqnr.toNat).2 ∧
      (e.receive seqnr).1.Tracks (ReplayWindow.receive 32 16 W seqnr.toNat).1 := by
  have hdiff := seqDiff_eq hseqnr hnewest
  rw [h.newest] at hdiff
  rcases lt_or_ge W.newest seqnr.toNat with hlt | hle
  · exact h.newer hlt hdiff
  · rcases lt_or_ge W.newest (seqnr.toNat + 32) with hrecent | hold
    · exact h.recent hle hrecent hdiff
    · exact h.tooOld (by rw [ReplayWindow.tooOld, decide_eq_true_eq]; exact hold) (by omega)

end DupEntry

/-! ### Runs -/

namespace Duplicates

/-- The step leaves the entry of an originator in its place: its messages have numbers in one half of the range and do
not make it start again, and it does not time out. -/
def calm (ip : OlsrIpAddr) (base : ℕ) (d : Duplicates) : DupEvent → Bool
  | .message _ ip' seqnr => ip' != ip || (DupEntry.inHalf base seqnr && (d.set ip).all fun entry =>
      -31 ≤ seqDiff seqnr entry.seqnr || entry.too_low_counter.toNat < 16)
  | .cleanup now => (d.set ip).all fun entry => !timedOut now entry.valid_until

/-- The entry of an originator knows its messages but the first one. -/
structure Remembers (base : ℕ) (ns : List (BitVec 16)) (e : DupEntry) : Prop where
  inHalf : DupEntry.inHalf base e.seqnr = true
  tracks : ∃ W, e.Tracks W ∧ W.accepted = (ns.tail.map BitVec.toNat).reverse
  newest_mem : e.seqnr ∈ ns
  le_newest : ∀ n ∈ ns, n.toNat ≤ e.seqnr.toNat

/-- What is known about an originator. -/
def Knows (ip : OlsrIpAddr) (base : ℕ) (d : Duplicates) : Prop :=
  match d.set ip with
  | none => d.numbers ip = []
  | some e => Remembers base (d.numbers ip) e

variable {base : ℕ} {ns : List (BitVec 16)} {e : DupEntry} {seqnr : BitVec 16}

theorem remembers_create (hseqnr : DupEntry.inHalf base seqnr = true) (valid_until : ℤ) :
    Remembers base [seqnr] (.olsr_create_duplicate_entry seqnr valid_until) where
  inHalf := hseqnr
  tracks := ⟨_, DupEntry.tracks_create seqnr valid_until, rfl⟩
  newest_mem := List.mem_singleton_self seqnr
  le_newest _ hn := (List.mem_singleton.1 hn) ▸ le_refl _

theorem Remembers.setTime (h : Remembers base ns e) (valid_until : ℤ) :
    Remembers base ns { e with valid_until := valid_until } := by
  obtain ⟨W, hW, haccepted⟩ := h.tracks
  exact ⟨h.inHalf, ⟨W, ⟨hW.wf, hW.newest, hW.low, hW.array⟩, haccepted⟩, h.newest_mem, h.le_newest⟩

theorem mem_accepted_iff {W : ReplayWindow.Window} (h : W.accepted = (ns.map BitVec.toNat).reverse) :
    seqnr.toNat ∈ W.accepted ↔ seqnr ∈ ns := by
  rw [h, List.mem_reverse, List.mem_map]
  constructor
  · rintro ⟨n, hn, heq⟩
    exact BitVec.eq_of_toNat_eq heq ▸ hn
  · exact fun hn => ⟨seqnr, hn, rfl⟩

/-- A message of the originator, whose entry does not start again. -/
theorem Remembers.receive (h : Remembers base ns e) (hseqnr : DupEntry.inHalf base seqnr = true)
    (hcalm : (-31 ≤ seqDiff seqnr e.seqnr || e.too_low_counter.toNat < 16) = true) :
    ((e.receive seqnr).2 = true ↔ e.seqnr.toNat < seqnr.toNat + 32 ∧ seqnr ∉ ns.tail) ∧
      Remembers base (if (e.receive seqnr).2 then ns ++ [seqnr] else ns) (e.receive seqnr).1 := by
  obtain ⟨W, hW, haccepted⟩ := h.tracks
  have hmem : seqnr.toNat ∈ W.accepted ↔ seqnr ∈ ns.tail := mem_accepted_iff haccepted
  obtain ⟨hsame, htracks⟩ := hW.receive h.inHalf hseqnr
  have hdiff := DupEntry.seqDiff_eq hseqnr h.inHalf
  have hnewest := hW.newest
  have hstays : ReplayWindow.startsAgain 32 16 W seqnr.toNat = false := by
    rw [Bool.or_eq_true, decide_eq_true_eq, decide_eq_true_eq, hW.low, hdiff, hnewest] at hcalm
    rw [ReplayWindow.startsAgain, ReplayWindow.tooOld, Bool.and_eq_false_iff, decide_eq_false_iff_not,
      decide_eq_false_iff_not]
    omega
  obtain ⟨hiff, haccepted', hnewest'⟩ := ReplayWindow.receive_accepted hstays
  rw [← hsame] at hiff haccepted' hnewest'
  refine ⟨by rw [hiff, hnewest, hmem], ?_⟩
  have hne : ns ≠ [] := List.ne_nil_of_mem h.newest_mem
  have hseqnr' := htracks.newest.trans hnewest'
  cases hprocessed : (e.receive seqnr).2 with
  | false =>
    rw [hprocessed, if_neg Bool.false_ne_true] at haccepted' hseqnr'
    have hsame' : (e.receive seqnr).1.seqnr = e.seqnr := BitVec.eq_of_toNat_eq (hseqnr'.trans hnewest.symm)
    rw [if_neg Bool.false_ne_true]
    exact ⟨hsame'.symm ▸ h.inHalf, ⟨_, htracks, haccepted'.trans haccepted⟩, hsame'.symm ▸ h.newest_mem,
      hsame'.symm ▸ h.le_newest⟩
  | true =>
    rw [hprocessed, if_pos rfl] at haccepted' hseqnr'
    rw [if_pos rfl]
    have hmax : (e.receive seqnr).1.seqnr = e.seqnr ∧ seqnr.toNat ≤ e.seqnr.toNat ∨
        (e.receive seqnr).1.seqnr = seqnr ∧ e.seqnr.toNat ≤ seqnr.toNat := by
      rcases le_total seqnr.toNat W.newest with hle | hle
      · rw [max_eq_left hle, ← hnewest] at hseqnr'
        exact Or.inl ⟨BitVec.eq_of_toNat_eq hseqnr', hnewest ▸ hle⟩
      · rw [max_eq_right hle] at hseqnr'
        exact Or.inr ⟨BitVec.eq_of_toNat_eq hseqnr', hnewest ▸ hle⟩
    refine ⟨?_, ⟨_, htracks, ?_⟩, ?_, fun n hn => ?_⟩
    · rcases hmax with ⟨heq, -⟩ | ⟨heq, -⟩
      · rw [heq]
        exact h.inHalf
      · rw [heq]
        exact hseqnr
    · rw [haccepted', haccepted, List.tail_append_of_ne_nil hne, List.map_append, List.reverse_append]
      rfl
    · rw [List.mem_append, List.mem_singleton]
      rcases hmax with ⟨heq, -⟩ | ⟨heq, -⟩
      · exact Or.inl (heq ▸ h.newest_mem)
      · exact Or.inr heq
    · rcases List.mem_append.1 hn with hn | hn
      · have hle := h.le_newest n hn
        rcases hmax with ⟨heq, -⟩ | ⟨heq, hle'⟩
        · rw [heq]
          exact hle
        · rw [heq]
          exact hle.trans hle'
      · rw [List.mem_singleton.1 hn]
        rcases hmax with ⟨heq, hle⟩ | ⟨heq, -⟩
        · rw [heq]
          exact hle
        · rw [heq]

theorem numbers_append (set set' : DuplicateSet) (processed : List (OlsrIpAddr × BitVec 16)) (ip ip' : OlsrIpAddr)
    (seqnr : BitVec 16) : numbers ⟨set, processed ++ [(ip', seqnr)]⟩ ip =
      if ip' = ip then numbers ⟨set', processed⟩ ip ++ [seqnr] else numbers ⟨set', processed⟩ ip := by
  rw [numbers, List.filter_append, List.map_append]
  by_cases hip : ip' = ip
  · simp [hip, numbers]
  · simp [hip, numbers]

variable {vtime now : ℤ} {ip : OlsrIpAddr} {d : Duplicates}

/-- The message of an originator. -/
theorem olsr_shall_process_message_spec (h : d.Knows ip base)
    (hcalm : calm ip base d (.message now ip seqnr) = true) :
    ((olsr_shall_process_message vtime now ip seqnr d.set).2 = true ↔
        (∀ n ∈ d.numbers ip, n.toNat < seqnr.toNat + 32) ∧ seqnr ∉ (d.numbers ip).tail) ∧
      (d.step vtime (.message now ip seqnr)).Knows ip base := by
  rw [calm, bne_self_eq_false, Bool.false_or, Bool.and_eq_true] at hcalm
  rw [Knows] at h ⊢
  cases hentry : d.set ip with
  | none =>
    rw [hentry] at h
    have hset : olsr_shall_process_message vtime now ip seqnr d.set = (Function.update d.set ip
        (some (.olsr_create_duplicate_entry seqnr (now + vtime))), true) := by
      simp only [olsr_shall_process_message, hentry]
    rw [step, hset]
    dsimp only
    rw [Function.update_self, if_pos rfl, numbers_append _ d.set, if_pos rfl]
    refine ⟨iff_of_true rfl ?_, ?_⟩
    · rw [h]
      exact ⟨fun n hn => absurd hn List.not_mem_nil, List.not_mem_nil⟩
    · dsimp only
      rw [h]
      exact remembers_create hcalm.1 _
  | some entry =>
    rw [hentry] at h
    have hcalm' := hcalm.2
    rw [hentry, Option.all_some] at hcalm'
    have hset : ∃ valid_until, olsr_shall_process_message vtime now ip seqnr d.set = (Function.update d.set ip
        (some (DupEntry.receive { entry with valid_until := valid_until } seqnr).1),
        (DupEntry.receive { entry with valid_until := valid_until } seqnr).2) := by
      simp only [olsr_shall_process_message, hentry]
      split
      · exact ⟨_, rfl⟩
      · exact ⟨entry.valid_until, rfl⟩
    obtain ⟨valid_until, hset⟩ := hset
    obtain ⟨hiff, hremembers⟩ := (h.setTime valid_until).receive hcalm.1 hcalm'
    rw [step, hset]
    dsimp only
    rw [Function.update_self]
    refine ⟨hiff.trans (and_congr_left' ?_), ?_⟩
    · constructor
      · exact fun hlt n hn => lt_of_le_of_lt (h.le_newest n hn) hlt
      · exact fun hall => hall _ h.newest_mem
    · cases hprocessed : (DupEntry.receive { entry with valid_until := valid_until } seqnr).2 with
      | false =>
        rw [hprocessed] at hremembers
        exact hremembers
      | true =>
        rw [hprocessed] at hremembers
        rw [if_pos rfl, numbers_append _ d.set, if_pos rfl]
        exact hremembers

/-- What happens to other originators. -/
theorem step_other {ip' : OlsrIpAddr} (hip : ip' ≠ ip) :
    (d.step vtime (.message now ip' seqnr)).set ip = d.set ip ∧
      (d.step vtime (.message now ip' seqnr)).numbers ip = d.numbers ip := by
  have hset : (olsr_shall_process_message vtime now ip' seqnr d.set).1 ip = d.set ip := by
    rw [olsr_shall_process_message]
    cases d.set ip' with
    | none => exact Function.update_of_ne hip.symm _ _
    | some entry => exact Function.update_of_ne hip.symm _ _
  refine ⟨hset, ?_⟩
  rw [step]
  dsimp only
  split
  · rw [numbers_append _ d.set, if_neg hip]
  · rfl

theorem Knows.step (h : d.Knows ip base) (e : DupEvent) (hcalm : calm ip base d e = true) :
    (d.step vtime e).Knows ip base := by
  cases e with
  | message now ip' seqnr =>
    by_cases hip : ip' = ip
    · subst hip
      exact (olsr_shall_process_message_spec h hcalm).2
    · obtain ⟨hset, hnumbers⟩ : (d.step vtime (.message now ip' seqnr)).set ip = d.set ip ∧
          (d.step vtime (.message now ip' seqnr)).numbers ip = d.numbers ip := step_other hip
      rw [Knows, hset, hnumbers]
      exact h
  | cleanup now =>
    have hset : (d.step vtime (.cleanup now)).set ip = d.set ip := by
      rw [Duplicates.step]
      dsimp only
      rw [olsr_cleanup_duplicate_entry]
      rw [calm] at hcalm
      cases hentry : d.set ip with
      | none => rfl
      | some entry =>
        rw [hentry, Option.all_some] at hcalm
        rw [Option.filter_some, if_pos hcalm]
    rw [Knows, hset]
    exact h

theorem Knows.nodup_tail (h : d.Knows ip base) : (d.numbers ip).tail.Nodup := by
  rw [Knows] at h
  cases hentry : d.set ip with
  | none =>
    rw [hentry] at h
    rw [h]
    exact List.nodup_nil
  | some entry =>
    rw [hentry] at h
    obtain ⟨W, hW, haccepted⟩ := h.tracks
    have hnodup := hW.wf.nodup
    rw [haccepted, List.nodup_reverse] at hnodup
    exact hnodup.of_map _

theorem knows_run {es : List DupEvent}
    (hes : Simulation.guarded (fun d e => some (step vtime d e)) (calm ip base) init es = true) :
    (run vtime es).Knows ip base :=
  Simulation.guarded_foldl (P := Knows ip base) (fun _ e h hcalm => h.step e hcalm) (show Knows ip base init from rfl)
    es hes

/-- A message occurs at most twice among those processed, and only the first one of its originator does. -/
theorem Knows.count_le (h : d.Knows ip base) (seqnr : BitVec 16) :
    d.processed.count (ip, seqnr) ≤ if (d.numbers ip).head? = some seqnr then 2 else 1 := by
  have hcount : d.processed.count (ip, seqnr) = (d.numbers ip).count seqnr := by
    rw [numbers, List.count, List.count, List.countP_map, List.countP_filter]
    refine List.countP_congr fun p _ => ?_
    simp [Prod.ext_iff, and_comm]
  have hnodup := h.nodup_tail
  rw [hcount]
  cases hnumbers : d.numbers ip with
  | nil => simp
  | cons n ns =>
    rw [hnumbers, List.tail_cons] at hnodup
    have hle := List.nodup_iff_count_le_one.1 hnodup seqnr
    rw [List.count_cons, List.head?_cons]
    by_cases hn : n = seqnr
    · subst hn
      rw [if_pos rfl, if_pos (beq_self_eq_true n)]
      omega
    · rw [if_neg (by simpa using hn), if_neg (by simpa using hn)]
      exact hle

/-- In every run in which the numbers of an originator stay in one half of their range and its entry neither times out
nor starts again, no message of it but the first is processed twice, and the next message is processed unless it is
more than 31 numbers behind or was processed before. -/
theorem processed_once (vtime : ℤ) (ip : OlsrIpAddr) (base : ℕ) (es : List DupEvent)
    (hes : Simulation.guarded (fun d e => some (step vtime d e)) (calm ip base) init es = true) :
    ((run vtime es).numbers ip).tail.Nodup ∧ ∀ (now : ℤ) (seqnr : BitVec 16),
      calm ip base (run vtime es) (.message now ip seqnr) = true →
        ((olsr_shall_process_message vtime now ip seqnr (run vtime es).set).2 = true ↔
          (∀ n ∈ (run vtime es).numbers ip, n.toNat < seqnr.toNat + 32) ∧ seqnr ∉ ((run vtime es).numbers ip).tail) := by
  have hknows := knows_run hes
  exact ⟨hknows.nodup_tail, fun now seqnr hcalm => (olsr_shall_process_message_spec hknows hcalm).1⟩

/-- The first message of an originator is processed twice, the second one is not. -/
theorem processed_once_demo : let es : List DupEvent := [.message 0 1 5, .message 1 1 5, .message 1 2 7,
      .message 2 1 6, .cleanup 3, .message 4 1 6]
    (run 30 es).numbers 1 = [5, 5, 6] ∧ ((run 30 es).numbers 1).tail.Nodup ∧ ∀ (now : ℤ) (seqnr : BitVec 16),
      calm 1 0 (run 30 es) (.message now 1 seqnr) = true →
        ((olsr_shall_process_message 30 now 1 seqnr (run 30 es).set).2 = true ↔
          (∀ n ∈ (run 30 es).numbers 1, n.toNat < seqnr.toNat + 32) ∧ seqnr ∉ ((run 30 es).numbers 1).tail) :=
  ⟨by decide, processed_once 30 1 0 _ (by decide)⟩

end Duplicates

end MpOlsr
