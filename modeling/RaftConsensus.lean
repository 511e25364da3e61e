import RaftConsensus.Library.TransitionSystem
import RaftConsensus.RegisterReplay
import RaftConsensus.Coherence
import RaftConsensus.Validity
import RaftConsensus.Acknowledgement
import RaftConsensus.AppliedOnce
import RaftConsensus.Elections
import RaftConsensus.LogMatching
import RaftConsensus.NextIndex
import RaftConsensus.Tenure
import RaftConsensus.HeartbeatLoops
import RaftConsensus.Redirects
import RaftConsensus.Mailboxes
import RaftConsensus.HeartbeatRange
import RaftConsensus.Answers
import RaftConsensus.NormalCase
import RaftConsensus.Candidacy
import RaftConsensus.PayloadSuffix
import RaftConsensus.LogRoundTrip
import RaftConsensus.Arithmetic
import RaftConsensus.Deactivation
import RaftConsensus.LockUp
import RaftConsensus.ServerChoice
import RaftConsensus.SoloRuns
import RaftConsensus.SelfElection
import RaftConsensus.Availability
import RaftConsensus.TermBounds
import RaftConsensus.Requests
import RaftConsensus.Model.Main
import RaftConsensus.Responses
import RaftConsensus.ProgramRuns
import RaftConsensus.Counting
import RaftConsensus.FaultTolerance
import RaftConsensus.SplitBrain
import RaftConsensus.HeartbeatRounds
import RaftConsensus.CatchUp
import RaftConsensus.RunningLoops
import RaftConsensus.CandidacyEnds
import RaftConsensus.Failover
