import Cs324.Shell.Jobs
import Mathlib.Data.Set.Insert
import Mathlib.Data.Fintype.Card

namespace Cs324.Shell
set_option autoImplicit true

/-- What the table is for: the set of pids of the jobs it holds. -/
def pids (jobs : JobTable) : Set Int := {pid | ∃ i, Occupied jobs i ∧ (jobs i).pid = pid}

def Distinct (jobs : JobTable) : Prop :=
  ∀ i j, Occupied jobs i → Occupied jobs j → (jobs i).pid = (jobs j).pid → i = j

theorem mem_pids (h : Occupied jobs i) : (jobs i).pid ∈ pids jobs := ⟨i, h, rfl⟩

theorem pids_congr (h : ∀ i, (jobs i).pid = (jobs' i).pid) : pids jobs = pids jobs' := by
  ext pid
  simp only [pids, Occupied, h]

theorem Distinct.congr (hd : Distinct jobs) (h : ∀ i, (jobs i).pid = (jobs' i).pid) :
    Distinct jobs' := by
  intro i j
  simp only [Occupied, ← h]
  exact hd i j

/-- A pid in use is found in its slot. -/
theorem Distinct.getjobpid (hd : Distinct jobs) (hp : 1 ≤ (jobs i).pid) :
    getjobpid jobs (jobs i).pid = some i := by
  refine firstWith_unique hp fun j he => hd j i ?_ ?_ he
  · rw [Occupied, he]
    omega
  · rw [Occupied]
    omega

theorem pids_initjobs (memory : JobTable) : pids (initjobs memory) = ∅ := by
  ext pid
  simp [pids, Occupied, initjobs, clearjob]

theorem distinct_initjobs (memory : JobTable) : Distinct (initjobs memory) :=
  fun _ _ hi => absurd rfl hi

theorem pids_fill (hi : ¬Occupied jobs i) (hp : job.pid ≠ 0) :
    pids (Function.update jobs i job) = insert job.pid (pids jobs) := by
  ext pid
  constructor
  · rintro ⟨j, hj, rfl⟩
    by_cases he : j = i
    · subst he
      exact .inl (by rw [Function.update_self])
    · simp only [Occupied, Function.update_of_ne he] at hj ⊢
      exact .inr (mem_pids hj)
  · rintro (rfl | ⟨j, hj, rfl⟩)
    · exact ⟨i, by simpa [Occupied] using hp, by rw [Function.update_self]⟩
    · have he : j ≠ i := fun he => hi (he ▸ hj)
      exact ⟨j, by simpa only [Occupied, Function.update_of_ne he] using hj,
        by rw [Function.update_of_ne he]⟩

theorem Distinct.fill (hd : Distinct jobs) (hn : job.pid ∉ pids jobs) :
    Distinct (Function.update jobs i job) := by
  have h : TellsApart Job.pid jobs := hd
  exact h.fill fun j hj he => hn (he ▸ mem_pids hj)

theorem pids_clear (hd : Distinct jobs) (hi : Occupied jobs i) :
    pids (Function.update jobs i (clearjob (jobs i))) = pids jobs \ {(jobs i).pid} := by
  ext pid
  constructor
  · rintro ⟨j, hj, rfl⟩
    obtain ⟨he, hj⟩ := occupied_of_clear hj
    rw [Function.update_of_ne he]
    exact ⟨mem_pids hj, fun hm => he (hd j i hj hi hm)⟩
  · rintro ⟨⟨j, hj, rfl⟩, hne⟩
    have he : j ≠ i := fun he => hne (by rw [he]; rfl)
    exact ⟨j, by simpa only [Occupied, Function.update_of_ne he] using hj,
      by rw [Function.update_of_ne he]⟩

theorem Distinct.clear (hd : Distinct jobs) (i : Fin maxJobs) :
    Distinct (Function.update jobs i (clearjob (jobs i))) := by
  have h : TellsApart Job.pid jobs := hd
  exact h.clear i

theorem pids_addjob (pgid : Int) (state : JobState) (cmdline : List UInt8) (hp : 1 ≤ pid) :
    pids (addjob g pid pgid state cmdline).2.1.jobs = insert pid (pids g.jobs) ∨
      (addjob g pid pgid state cmdline).2.1 = g ∧ ∀ i, Occupied g.jobs i := by
  rcases addjob_cases g pid pgid state cmdline with ⟨_, he, hfull⟩ | ⟨i, _, hi, _, _, he⟩
  · exact .inr ⟨he, hfull hp⟩
  · left
    rw [he]
    exact pids_fill hi (by change pid ≠ 0; omega)

theorem Distinct.addjob (hd : Distinct g.jobs) (hn : pid ∉ pids g.jobs) :
    Distinct (addjob g pid pgid state cmdline).2.1.jobs := by
  rcases addjob_cases g pid pgid state cmdline with ⟨_, he, _⟩ | ⟨i, _, hi, _, _, he⟩
  · rw [he]
    exact hd
  · rw [he]
    exact hd.fill hn

theorem pids_deletejob (hd : Distinct g.jobs) (hp : 1 ≤ pid) :
    pids (deletejob g pid).2.jobs = pids g.jobs \ {pid} := by
  rcases deletejob_cases g pid with ⟨he, hn⟩ | ⟨i, _, hi, _, he⟩
  · rw [he, Set.sdiff_singleton_eq_self]
    rintro ⟨i, _, hi⟩
    exact hn hp i hi
  · have ho : Occupied g.jobs i := by rw [Occupied, hi]; omega
    rw [he, ← hi]
    exact pids_clear hd ho

theorem Distinct.deletejob (hd : Distinct g.jobs) (pid : Int) :
    Distinct (deletejob g pid).2.jobs := by
  rcases deletejob_cases g pid with ⟨he, _⟩ | ⟨i, _, _, _, he⟩
  · rw [he]
    exact hd
  · rw [he]
    exact hd.clear i

theorem card_le_of_full {children : Finset Int} (hd : Distinct jobs)
    (hfull : ∀ i, Occupied jobs i) (hs : pids jobs ⊆ children) : maxJobs ≤ children.card := by
  have hinj : Function.Injective fun i => (jobs i).pid :=
    fun i j he => hd i j (hfull i) (hfull j) he
  have himg : Finset.univ.image (fun i => (jobs i).pid) ⊆ children := by
    intro pid hm
    obtain ⟨i, _, rfl⟩ := Finset.mem_image.1 hm
    exact hs (mem_pids (hfull i))
  calc maxJobs = (Finset.univ : Finset (Fin maxJobs)).card := (Finset.card_fin _).symm
    _ = (Finset.univ.image fun i => (jobs i).pid).card :=
      (Finset.card_image_of_injective _ hinj).symm
    _ ≤ children.card := Finset.card_le_card himg

end Cs324.Shell
