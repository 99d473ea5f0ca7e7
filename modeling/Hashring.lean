import Hashring.Spec.Ring
import Hashring.Spec.Search
import Hashring.Spec.Run
import Hashring.Proof.Sorted
import Hashring.Proof.Lookup
import Hashring.Proof.Since
import Hashring.Proof.Scan
import Hashring.Proof.Churn
import Hashring.Proof.Count
import Hashring.Proof.Termination
import Hashring.Proof.Removal
import Hashring.Proof.Members
import Hashring.Proof.Weighted
import Hashring.Proof.Target
import Hashring.Proof.RoundTrip
import Hashring.Proof.Invariant
import Hashring.Proof.Resync
import Hashring.Proof.Clear
import Hashring.Proof.Ideal
import Hashring.Proof.MapOrder
import Hashring.Proof.Undo
