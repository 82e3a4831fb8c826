import StreamBridge.Boot
import StreamBridge.Buffers
import StreamBridge.Distributed
import StreamBridge.Format
import StreamBridge.Framing
import StreamBridge.Loss
import StreamBridge.Matching
import StreamBridge.Replies
import StreamBridge.Rounds
import StreamBridge.Schedule
import StreamBridge.ServerScreen
import StreamBridge.Swapped
import StreamBridge.Validation
