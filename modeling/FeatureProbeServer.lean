import FeatureProbeServer.SecretsRun
import FeatureProbeServer.Polling
import FeatureProbeServer.Endpoints
import FeatureProbeServer.VersionRun
import FeatureProbeServer.Notify
import FeatureProbeServer.Isolation
import FeatureProbeServer.Registration
import FeatureProbeServer.Registry
import FeatureProbeServer.Deadlock
import FeatureProbeServer.Evaluation
import FeatureProbeServer.Reconcile
import FeatureProbeServer.SecretsOrder
import FeatureProbeServer.Pollers
import FeatureProbeServer.Config
import FeatureProbeServer.Handler
import FeatureProbeServer.Main
import FeatureProbeServer.Passes
import FeatureProbeServer.Realtime
import FeatureProbeServer.Steady
import FeatureProbeServer.Static
